import NodeVcdiff.OpenVcdiff.InstructionMap
import NodeVcdiff.SelfCopy

/-!
# `encodetable.cc`

The writer that puts instructions into opcodes and opcodes into a delta window.
-/

namespace OpenVcdiff

open Incremental (Parsed Parser)

/-- `VCDiffFormatExtensionFlags`. -/
abbrev FormatExtensionFlags := ℕ

/-- `VCD_STANDARD_FORMAT`. -/
def VCD_STANDARD_FORMAT : FormatExtensionFlags := 0x00

/-- `VCD_FORMAT_INTERLEAVED`. -/
def VCD_FORMAT_INTERLEAVED : FormatExtensionFlags := 0x01

/-- `VCD_FORMAT_CHECKSUM`. -/
def VCD_FORMAT_CHECKSUM : FormatExtensionFlags := 0x02

/-- `VCD_FORMAT_JSON`. -/
def VCD_FORMAT_JSON : FormatExtensionFlags := 0x04

/-- `VCD_SOURCE`. -/
def VCD_SOURCE : UInt8 := 0x01

/-- `VCD_TARGET`. -/
def VCD_TARGET : UInt8 := 0x02

/-- `VCD_CHECKSUM`. -/
def VCD_CHECKSUM : UInt8 := 0x04

/-- `kHeaderStandardFormat`. -/
def kHeaderStandardFormat : List UInt8 := [0xD6, 0xC3, 0xC4, 0x00, 0x00]

/-- `kHeaderExtendedFormat`. The fourth byte is the letter S. -/
def kHeaderExtendedFormat : List UInt8 := [0xD6, 0xC3, 0xC4, 0x53, 0x00]

/-- `static_cast<int32_t>` of a `size_t`. -/
def toInt32 (n : ℕ) : ℤ := (n : ℤ).bmod 0x100000000

/-- `VCDiffCodeTableWriter`. The instruction map is there after `Init`; an opcode that a second
instruction may still be put into is remembered by its index. -/
structure CodeTableWriter where
  interleaved : Bool
  maxMode : ℕ
  codeTableData : CodeTableData
  instructionMap : Option InstructionMap
  instructionsAndSizes : List UInt8
  separateDataForAddAndRun : List UInt8
  separateAddressesForCopy : List UInt8
  addressCache : AddressCache
  dictionarySize : ℕ
  targetLength : ℕ
  lastOpcodeIndex : Option ℕ
  addChecksum : Bool
  checksum : ℕ

namespace CodeTableWriter

/-- The constructor with a code table. -/
def newWith (interleaved : Bool) (nearCacheSize sameCacheSize : ℕ)
    (codeTableData : CodeTableData) (maxMode : ℕ) : CodeTableWriter where
  interleaved
  maxMode
  codeTableData
  instructionMap := none
  instructionsAndSizes := []
  separateDataForAddAndRun := []
  separateAddressesForCopy := []
  addressCache := .new nearCacheSize sameCacheSize
  dictionarySize := 0
  targetLength := 0
  lastOpcodeIndex := none
  addChecksum := false
  checksum := 0

/-- The constructor that uses the default code table. -/
def new (interleaved : Bool) : CodeTableWriter :=
  newWith interleaved 4 3 .kDefaultCodeTableData AddressCache.defaultLastMode

variable (w : CodeTableWriter)

/-- `Init`. -/
def init (dictionarySize : ℕ) : Bool × CodeTableWriter :=
  let w := { w with
    dictionarySize
    instructionMap := some (w.instructionMap.getD (.new w.codeTableData)) }
  match w.addressCache.init with
  | none => (false, w)
  | some addressCache => (true, { w with addressCache, targetLength := 0, lastOpcodeIndex := none })

/-- `WriteHeader`. -/
def writeHeader (formatExtensions : FormatExtensionFlags) : List UInt8 :=
  if formatExtensions = VCD_STANDARD_FORMAT then kHeaderStandardFormat else kHeaderExtendedFormat

/-- `AppendSizeToString`: the bytes that are appended. -/
def sizeBytes (size : ℕ) : List UInt8 := VarintBE.encode .int32 (toInt32 size)

/-- `CalculateLengthOfSizeAsVarint`. -/
def calculateLengthOfSizeAsVarint (size : ℕ) : ℕ := VarintBE.length .int32 (toInt32 size)

/-- An opcode for the instruction with its size, or with an open size that is written after it. -/
def findOpcode (lookup : ℕ → Option UInt8) (size : ℕ) : Option (UInt8 × List UInt8) :=
  match if size ≤ 255 then lookup size else none with
  | some opcode => some (opcode, [])
  | none => (lookup 0).map fun opcode => (opcode, sizeBytes size)

/-- `EncodeInstruction`. -/
def encodeInstruction (inst : InstructionType) (size mode : ℕ) : CodeTableWriter :=
  match w.instructionMap with
  | none => w
  | some map =>
    let compound : Option (ℕ × UInt8 × List UInt8) := do
      let index ← w.lastOpcodeIndex
      let lastOpcode := w.instructionsAndSizes.getD index 0
      let found ← findOpcode (map.lookupSecondOpcode lastOpcode inst · mode) size
      return (index, found)
    match compound with
    | some (index, opcode, size) =>
      { w with
        instructionsAndSizes := w.instructionsAndSizes.set index opcode ++ size
        lastOpcodeIndex := none }
    | none =>
      match findOpcode (map.lookupFirstOpcode inst · mode) size with
      | some (opcode, size) =>
        { w with
          instructionsAndSizes := w.instructionsAndSizes ++ opcode :: size
          lastOpcodeIndex := some w.instructionsAndSizes.length }
      | none => w

/-- Append to the string that `data_for_add_and_run_` points to. -/
def appendData (data : List UInt8) : CodeTableWriter :=
  if w.interleaved then { w with instructionsAndSizes := w.instructionsAndSizes ++ data }
  else { w with separateDataForAddAndRun := w.separateDataForAddAndRun ++ data }

/-- Append to the string that `addresses_for_copy_` points to. -/
def appendAddress (address : List UInt8) : CodeTableWriter :=
  if w.interleaved then { w with instructionsAndSizes := w.instructionsAndSizes ++ address }
  else { w with separateAddressesForCopy := w.separateAddressesForCopy ++ address }

/-- `target_length_` grows. -/
def grow (size : ℕ) : CodeTableWriter := { w with targetLength := w.targetLength + size }

/-- Another state of `address_cache_`. -/
def withCache (addressCache : AddressCache) : CodeTableWriter := { w with addressCache }

/-- `Add`. -/
def add (data : List UInt8) : CodeTableWriter :=
  ((w.encodeInstruction .add data.length 0).appendData data).grow data.length

/-- `Copy` at the position `hereAddress`. -/
def copyAt (hereAddress offset : ℤ) (size : ℕ) : CodeTableWriter :=
  let r := w.addressCache.encodeAddress offset hereAddress
  let w := w.withCache r.2.2
  ((w.encodeInstruction .copy size r.1).appendAddress
    (w.addressCache.addressBytes r.1 r.2.1)).grow size

/-- `Copy`. -/
def copy (offset : ℤ) (size : ℕ) : CodeTableWriter :=
  match w.instructionMap with
  | none => w
  | some _ => w.copyAt (toInt32 (w.dictionarySize + w.targetLength)) offset size

/-- `Run`. -/
def run (size : ℕ) (byte : UInt8) : CodeTableWriter :=
  ((w.encodeInstruction .run size 0).appendData [byte]).grow size

/-- `AddChecksum`. -/
def withChecksum (checksum : ℕ) : CodeTableWriter := { w with addChecksum := true, checksum }

/-- `CalculateLengthOfTheDeltaEncoding`. -/
def calculateLengthOfTheDeltaEncoding : ℕ :=
  calculateLengthOfSizeAsVarint w.targetLength + 1 +
    calculateLengthOfSizeAsVarint w.separateDataForAddAndRun.length +
    calculateLengthOfSizeAsVarint w.instructionsAndSizes.length +
    calculateLengthOfSizeAsVarint w.separateAddressesForCopy.length +
    w.separateDataForAddAndRun.length + w.instructionsAndSizes.length +
    w.separateAddressesForCopy.length +
    if w.addChecksum then VarintBE.length .int64 w.checksum else 0

/-- The delta encoding: what `Output` appends between the length of it and its end. -/
def deltaEncoding : List UInt8 :=
  sizeBytes w.targetLength ++ [0x00] ++ sizeBytes w.separateDataForAddAndRun.length ++
    sizeBytes w.instructionsAndSizes.length ++ sizeBytes w.separateAddressesForCopy.length ++
    (if w.addChecksum then VarintBE.encode .int64 w.checksum else []) ++
    w.separateDataForAddAndRun ++ w.instructionsAndSizes ++ w.separateAddressesForCopy

/-- `Output`: the bytes it appends and the writer, ready for the next window. -/
def output : List UInt8 × CodeTableWriter :=
  if w.instructionsAndSizes = [] then ([], (w.init w.dictionarySize).2)
  else
    ((if w.addChecksum then VCD_SOURCE ||| VCD_CHECKSUM else VCD_SOURCE) ::
      (sizeBytes w.dictionarySize ++ sizeBytes 0 ++
        sizeBytes w.calculateLengthOfTheDeltaEncoding ++ w.deltaEncoding),
      ({ w with
        separateDataForAddAndRun := []
        instructionsAndSizes := []
        separateAddressesForCopy := [] }.init w.dictionarySize).2)

/-- The call that encodes an instruction. -/
def encode : SelfCopy.Instruction UInt8 → CodeTableWriter
  | .add data => w.add data
  | .run size byte => w.run size byte
  | .copy address size => w.copy address size

end CodeTableWriter

end OpenVcdiff
