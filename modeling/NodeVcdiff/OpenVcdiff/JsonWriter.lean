import Mathlib.Data.Nat.Digits.Defs
import NodeVcdiff.OpenVcdiff.CodeTableWriterInterface

/-!
# `jsonwriter.cc`

The code table writer for JSON. Text is the list of its bytes.
-/

namespace OpenVcdiff

/-- `JSONCodeTableWriter`. -/
structure JsonCodeTableWriter where
  text : List UInt8
  outputCalled : Bool
  opcodeAdded : Bool
  deriving DecidableEq, Repr

namespace JsonCodeTableWriter

/-- The digit `%x` prints. -/
def hexDigit (n : ℕ) : UInt8 := UInt8.ofNat (if n < 10 then 0x30 + n else 0x57 + n)

/-- The body of the loop in `JSONEscape`. -/
def escapeByte (c : UInt8) : List UInt8 :=
  if c = 0x22 then [0x5C, 0x22]
  else if c = 0x5C then [0x5C, 0x5C]
  else if c = 0x08 then [0x5C, 0x62]
  else if c = 0x0C then [0x5C, 0x66]
  else if c = 0x0A then [0x5C, 0x6E]
  else if c = 0x0D then [0x5C, 0x72]
  else if c = 0x09 then [0x5C, 0x74]
  else if c < 32 ∨ c ≥ 127 then
    [0x5C, 0x75, 0x30, 0x30, hexDigit (c.toNat / 16), hexDigit (c.toNat % 16)]
  else [c]

/-- `JSONEscape`. -/
def jsonEscape (data : List UInt8) : List UInt8 := data.flatMap escapeByte

/-- What `ostringstream` prints for a number that is not negative. -/
def natText (n : ℕ) : List UInt8 :=
  if n = 0 then [0x30] else (Nat.digits 10 n).reverse.map fun d => UInt8.ofNat (0x30 + d)

/-- What `ostringstream` prints for a number. -/
def intText (i : ℤ) : List UInt8 := if i < 0 then 0x2D :: natText i.natAbs else natText i.natAbs

/-- `IsAscii`. -/
def isAscii (data : List UInt8) : Bool := data.all (· < 128)

/-- The constructor. -/
def new : JsonCodeTableWriter := ⟨[], false, false⟩

variable (w : JsonCodeTableWriter)

/-- An item with a leading comma if it is not the first one. -/
def push (item : List UInt8) : JsonCodeTableWriter :=
  { w with text := w.text ++ (if w.opcodeAdded then [0x2C] else []) ++ item, opcodeAdded := true }

/-- `Add`. -/
def add (data : List UInt8) : JsonCodeTableWriter := w.push (0x22 :: (jsonEscape data ++ [0x22]))

/-- `Copy`. -/
def copy (offset : ℤ) (size : ℕ) : JsonCodeTableWriter :=
  w.push (intText offset ++ 0x2C :: natText size)

/-- `Run`. The byte is not escaped. -/
def run (size : ℕ) (byte : UInt8) : JsonCodeTableWriter :=
  w.push (0x22 :: (List.replicate size byte ++ [0x22]))

/-- `Output`. -/
def output : List UInt8 × JsonCodeTableWriter := (w.text, { w with outputCalled := true, text := [] })

/-- `FinishEncoding`. -/
def finishEncoding : List UInt8 := if w.outputCalled then [0x5D] else []

instance : CodeTableWriterInterface JsonCodeTableWriter where
  init w _ := (true, { w with text := [0x5B], opcodeAdded := false })
  writeHeader _ _ := []
  add := add
  copy := copy
  run := run
  addChecksum w _ := w
  output := output
  finishEncoding := finishEncoding
  verifyDictionary _ := isAscii
  verifyChunk _ := isAscii

end JsonCodeTableWriter

end OpenVcdiff
