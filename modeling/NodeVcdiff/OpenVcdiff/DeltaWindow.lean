import NodeVcdiff.OpenVcdiff.Adler32
import NodeVcdiff.OpenVcdiff.CodeTableReader
import NodeVcdiff.OpenVcdiff.HeaderParser

/-!
# `vcdecoder.cc`: the delta window

`VCDiffDeltaFileWindow` reads the header of a window and executes its instructions, which may
arrive in pieces when the sections of the window are interleaved.
-/

namespace OpenVcdiff

open Incremental (Parsed Parser)

/-- `VCDiffResult`. -/
inductive VCDiffResult where
  | success
  | error
  | endOfData
  deriving DecidableEq, Repr

/-- The three `DeltaWindowSection`s of a window: what is left of each, or of the one that all
three share. -/
inductive Sections where
  | separate (instructionsAndSizes dataForAddAndRun addressesForCopy : List UInt8)
  | interleaved (instructionsAndSizes : List UInt8)
  deriving DecidableEq, Repr

namespace Sections

/-- `instructions_and_sizes_`. -/
def instructions : Sections → List UInt8
  | separate i _ _ => i
  | interleaved s => s

/-- `data_for_add_and_run_`. -/
def data : Sections → List UInt8
  | separate _ d _ => d
  | interleaved s => s

/-- `addresses_for_copy_`. -/
def addresses : Sections → List UInt8
  | separate _ _ a => a
  | interleaved s => s

/-- A new position in the instructions. -/
def setInstructions (s : Sections) (rest : List UInt8) : Sections :=
  match s with
  | separate _ d a => separate rest d a
  | interleaved _ => interleaved rest

/-- A new position in the data. -/
def setData (s : Sections) (rest : List UInt8) : Sections :=
  match s with
  | separate i _ a => separate i rest a
  | interleaved _ => interleaved rest

/-- A new position in the addresses. -/
def setAddresses (s : Sections) (rest : List UInt8) : Sections :=
  match s with
  | separate i d _ => separate i d rest
  | interleaved _ => interleaved rest

/-- `IsInterleaved`: the sections are one. -/
def isInterleaved : Sections → Bool
  | separate _ _ _ => false
  | interleaved _ => true

/-- How much is left of all sections. -/
def length : Sections → ℕ
  | separate i d a => d.length + i.length + a.length
  | interleaved s => s.length

end Sections

/-- `VCDiffDeltaFileWindow`. The source segment is kept as the bytes at `source_segment_ptr_`. -/
structure DeltaFileWindow where
  foundHeader : Bool
  sourceSegment : List UInt8
  sections : Sections
  interleavedBytesExpected : ℕ
  targetWindowLength : ℕ
  targetWindowStartPos : ℕ
  hasChecksum : Bool
  expectedChecksum : ℕ
  reader : CodeTableReader
  deriving DecidableEq

/-- The fields of `VCDiffStreamingDecoderImpl`, except the decoder for a custom code table.
`kUnlimitedBytes` is `none`. -/
structure DecoderState where
  startDecodingWasCalled : Bool
  dictionary : List UInt8
  unparsedBytes : List UInt8
  decodedTarget : List UInt8
  vcdiffVersionCode : UInt8
  deltaWindow : DeltaFileWindow
  addrCache : Option AddressCache
  customCodeTableString : List UInt8
  plannedTargetFileSize : Option ℕ
  maximumTargetFileSize : ℕ
  maximumTargetWindowSize : ℕ
  totalOfTargetWindowSizes : ℕ
  decodedTargetOutputPosition : ℕ
  allowVcdTarget : Bool
  deriving DecidableEq

/-- The difference of two `size_t`. -/
def subSize (a b : ℕ) : ℕ := if b ≤ a then a - b else a + 0x10000000000000000 - b

namespace DecoderState

variable (D : DecoderState)

/-- Another `delta_window_`. -/
def withWindow (window : DeltaFileWindow) : DecoderState := { D with deltaWindow := window }

/-- `VCDiffDeltaFileWindow::Reset`. The code table of the reader stays. -/
def resetWindow : DecoderState :=
  D.withWindow
    { D.deltaWindow with
      foundHeader := false
      targetWindowStartPos := D.decodedTarget.length
      targetWindowLength := 0
      sourceSegment := []
      sections := .separate [] [] []
      interleavedBytesExpected := 0
      hasChecksum := false
      expectedChecksum := 0 }

/-- `AllowInterleaved` and `AllowChecksum`: the version code is the letter S. -/
def allowExtensions : Bool := decide (D.vcdiffVersionCode = 0x53)

/-- `TargetWindowWouldExceedSizeLimits`. -/
def targetWindowWouldExceedSizeLimits (windowSize : ℕ) : Bool :=
  decide (windowSize > D.maximumTargetWindowSize) ||
    (match D.plannedTargetFileSize with
      | none => false
      | some planned => decide (windowSize > subSize planned D.totalOfTargetWindowSizes)) ||
    decide (windowSize > subSize D.maximumTargetFileSize D.totalOfTargetWindowSizes)

/-- `TargetBytesDecoded`. -/
def targetBytesDecoded : ℕ := D.decodedTarget.length - D.deltaWindow.targetWindowStartPos

/-! ## Reading the header -/

/-- The fields of a window header. -/
structure Header where
  winIndicator : UInt8
  sourceSegmentLength : ℕ
  sourceSegmentPosition : ℕ
  targetWindowLength : ℕ
  lengths : HeaderParser.SectionLengths
  deriving DecidableEq, Repr

/-- `has_checksum_` for a window indicator. -/
def headerHasChecksum (winIndicator : UInt8) : Bool :=
  D.allowExtensions && decide (winIndicator &&& VCD_CHECKSUM ≠ 0)

/-- The fields after the length of the delta encoding. -/
def parseEncodingHeader (winIndicator : UInt8) :
    Parser UInt8 (ℕ × HeaderParser.SectionLengths) := do
  let targetWindowLength ← HeaderParser.parseSize
  Parser.check (D.targetWindowWouldExceedSizeLimits targetWindowLength = false)
  HeaderParser.parseDeltaIndicator
  let lengths ← HeaderParser.parseLengths (D.headerHasChecksum winIndicator)
    D.deltaWindow.expectedChecksum
  return (targetWindowLength, lengths)

/-- The fields that `ReadHeader` and `SetUpWindowSections` parse. The length of the delta encoding
has to be that of its header and its sections. -/
def parseHeader : Parser UInt8 Header := do
  let segment ← HeaderParser.parseWinIndicatorAndSourceSegment D.dictionary.length
    D.decodedTarget.length D.allowVcdTarget D.deltaWindow.sourceSegment.length
  let deltaEncodingLength ← HeaderParser.parseSize
  let encoding ← (D.parseEncodingHeader segment.1).counted
  Parser.check (deltaEncodingLength = encoding.2 + encoding.1.2.total)
  return ⟨segment.1, segment.2.1, segment.2.2, encoding.1.1, encoding.1.2⟩

/-- Whether the sections of a window are one. -/
def headerIsInterleaved (h : Header) : Bool :=
  D.allowExtensions && decide (h.lengths.addAndRunData = 0 ∧ h.lengths.addresses = 0)

/-- The source segment of a window. -/
def headerSourceSegment (h : Header) : List UInt8 :=
  if h.winIndicator &&& VCD_SOURCE ≠ 0 then
    (D.dictionary.drop h.sourceSegmentPosition).take h.sourceSegmentLength
  else if h.winIndicator &&& VCD_TARGET ≠ 0 then
    (D.decodedTarget.drop h.sourceSegmentPosition).take h.sourceSegmentLength
  else []

/-- The section pointers before the data: `UpdateInterleavedSectionPointers`, or the sections one
after the other. -/
def setUpSections (h : Header) (data : List UInt8) : Sections :=
  if D.headerIsInterleaved h then .interleaved (data.take h.lengths.instructionsAndSizes)
  else
    let d := h.lengths.addAndRunData
    let i := h.lengths.instructionsAndSizes
    .separate ((data.drop d).take i) (data.take d) (((data.drop d).drop i).take h.lengths.addresses)

/-- The decoder when the header `h` was found before `data`. -/
def enterWindow (h : Header) (data : List UInt8) : DecoderState :=
  { D with
    deltaWindow :=
      { D.deltaWindow with
        foundHeader := true
        sourceSegment := D.headerSourceSegment h
        sections := D.setUpSections h data
        interleavedBytesExpected :=
          if D.headerIsInterleaved h then h.lengths.instructionsAndSizes
          else D.deltaWindow.interleavedBytesExpected
        targetWindowLength := h.targetWindowLength
        hasChecksum := D.headerHasChecksum h.winIndicator
        expectedChecksum := h.lengths.checksum
        reader := D.deltaWindow.reader.init }
    totalOfTargetWindowSizes := D.totalOfTargetWindowSizes + h.targetWindowLength }

/-- `ReadHeader` with `SetUpWindowSections`: the sections of a window that is not interleaved have
to be there completely. What is assigned before the data ends is assigned again later. -/
def readHeader (data : List UInt8) : VCDiffResult × DecoderState × List UInt8 :=
  match D.parseHeader data with
  | .error => (.error, D, data)
  | .endOfData => (.endOfData, D, data)
  | .success h rest =>
    if !D.headerIsInterleaved h && decide (rest.length < h.lengths.total) then (.endOfData, D, data)
    else (.success, D.enterWindow h rest, rest)

/-! ## Executing instructions -/

/-- `CopyBytes` and `RunByte`. -/
def append (bytes : List UInt8) : DecoderState :=
  { D with decodedTarget := D.decodedTarget ++ bytes }

/-- Other sections in `delta_window_`. -/
def withSections (s : Sections) : DecoderState :=
  D.withWindow { D.deltaWindow with sections := s }

/-- `DecodeAdd`. -/
def decodeAdd (size : ℕ) : VCDiffResult × DecoderState :=
  let data := D.deltaWindow.sections.data
  if size > data.length then (.endOfData, D)
  else (.success, (D.append (data.take size)).withSections
    (D.deltaWindow.sections.setData (data.drop size)))

/-- `DecodeRun`. -/
def decodeRun (size : ℕ) : VCDiffResult × DecoderState :=
  match D.deltaWindow.sections.data with
  | [] => (.endOfData, D)
  | byte :: rest => (.success, (D.append (.replicate size byte)).withSections
      (D.deltaWindow.sections.setData rest))

/-- The state of the loop in `DecodeCopy` that copies target data. It reads behind where it
writes. -/
structure CopyState where
  decodedTarget : List UInt8
  address : ℕ
  targetBytesDecoded : ℕ
  size : ℕ
  behind : address < targetBytesDecoded

/-- The loop in `DecodeCopy`: a copy that extends into the yet-to-be-copied target data is made in
parts. -/
def copyLoop (targetWindowStartPos : ℕ) : Loop CopyState (List UInt8) where
  body s :=
    let bytes (n : ℕ) := (s.decodedTarget.drop (targetWindowStartPos + s.address)).take n
    let partialCopySize := s.targetBytesDecoded - s.address
    if s.size > partialCopySize then
      .inl ⟨s.decodedTarget ++ bytes partialCopySize, s.address + partialCopySize,
        s.targetBytesDecoded + partialCopySize, s.size - partialCopySize,
        Nat.add_lt_add_right s.behind _⟩
    else .inr (s.decodedTarget ++ bytes s.size)
  size s := s.size
  shrinks := by
    intro s t h
    simp only at h
    split at h
    · cases h
      have := s.behind
      show s.size - (s.targetBytesDecoded - s.address) < s.size
      omega
    · cases h

/-- The target after `size` bytes were copied: the part of `DecodeCopy` after the address was
decoded. The address that was decoded lies before the current position, so that the loop is
entered behind the end of the target. -/
def copied (address size : ℕ) : List UInt8 :=
  let source := D.deltaWindow.sourceSegment
  if address + size ≤ source.length then D.decodedTarget ++ (source.drop address).take size
  else
    -- some of it may come from the source segment
    let partialCopySize := source.length - address
    let target := D.decodedTarget ++ (source.drop address).take partialCopySize
    let address := address + partialCopySize - source.length
    let targetBytesDecoded := D.targetBytesDecoded + partialCopySize
    if h : address < targetBytesDecoded then
      (copyLoop D.deltaWindow.targetWindowStartPos).run
        ⟨target, address, targetBytesDecoded, size - partialCopySize, h⟩
    else target

/-- `here_address`. -/
def hereAddress : ℤ := toInt32 (D.deltaWindow.sourceSegment.length + D.targetBytesDecoded)

/-- The decoder when `size` bytes were copied from `address`. -/
def afterCopy (address : ℤ) (cache : AddressCache) (size : ℕ) (rest : List UInt8) : DecoderState :=
  { D with
    addrCache := some cache
    decodedTarget := D.copied address.toNat size }.withSections
      (D.deltaWindow.sections.setAddresses rest)

/-- `DecodeCopy` with an address cache. -/
def decodeCopyAt (cache : AddressCache) (hereAddress : ℤ) (size mode : ℕ) :
    VCDiffResult × DecoderState :=
  match cache.decodeAddress hereAddress mode D.deltaWindow.sections.addresses with
  | .error => (.error, D)
  | .endOfData => (.endOfData, D)
  | .success decoded rest => (.success, D.afterCopy decoded.1 decoded.2 size rest)

/-- `DecodeCopy`. -/
def decodeCopy (size mode : ℕ) : VCDiffResult × DecoderState :=
  match D.addrCache with
  | none => (.error, D)
  | some cache => D.decodeCopyAt cache D.hereAddress size mode

/-- `UnGetInstruction` on the sections of the window. -/
def unGetInstruction : DecoderState :=
  let r := D.deltaWindow.reader.unGetInstruction D.deltaWindow.sections.instructions
  D.withWindow
    { D.deltaWindow with
      reader := r.1, sections := D.deltaWindow.sections.setInstructions r.2 }

/-- The decoder after `GetNextInstruction`. -/
def afterNext (reader : CodeTableReader) (rest : List UInt8) : DecoderState :=
  D.withWindow
    { D.deltaWindow with reader, sections := D.deltaWindow.sections.setInstructions rest }

/-- The instruction is executed. A type that is no instruction is an error. -/
def execute (inst : UInt8) (size mode : ℕ) : VCDiffResult × DecoderState :=
  match InstructionType.ofByte inst with
  | some .add => D.decodeAdd size
  | some .run => D.decodeRun size
  | some .copy => D.decodeCopy size mode
  | _ => (.error, D)

/-- One round of the loop in `DecodeBody`: an instruction is read and executed, and read again
later if what it needs is not there. -/
def decodeInstruction : VCDiffResult × DecoderState :=
  let r := D.deltaWindow.reader.getNextInstruction D.deltaWindow.sections.instructions
  let D := D.afterNext r.2.1 r.2.2
  match r.1 with
  | .endOfData => (.endOfData, D)
  | .error => (.error, D)
  | .instruction inst size mode =>
    if size > D.deltaWindow.targetWindowLength ∨
        size + D.targetBytesDecoded > D.deltaWindow.targetWindowLength then (.error, D)
    else
      let r := D.execute inst size mode.toNat
      match r.1 with
      | .endOfData => (.endOfData, r.2.unGetInstruction)
      | .error => (.error, r.2)
      | .success => (.success, r.2)

end DecoderState

end OpenVcdiff
