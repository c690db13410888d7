import NodeVcdiff.OpenVcdiff.CodeTableWriter

/-!
# `headerparser.cc`

The fields of a window header. A `VCDiffHeaderParser` that has failed once fails ever after, which
is what running one parser after another means; what it logs is left out.
-/

namespace OpenVcdiff

open Incremental (Parsed Parser)

namespace HeaderParser

/-- `VCD_DATACOMP | VCD_INSTCOMP | VCD_ADDRCOMP`. -/
def VCD_COMP : UInt8 := 0x01 ||| 0x02 ||| 0x04

/-- `ParseByte`. -/
def parseByte : Parser UInt8 UInt8 := Parser.next

/-- `ParseInt32`. -/
def parseInt32 : Parser UInt8 ℕ := VarintBE.parse .int32

/-- `ParseUInt32`. -/
def parseUInt32 : Parser UInt8 ℕ := do
  let parsedValue ← VarintBE.parse .int64
  Parser.check (¬parsedValue > 0xFFFFFFFF)
  return parsedValue

/-- `ParseChecksum`. -/
def parseChecksum : Parser UInt8 ℕ := parseUInt32

/-- `ParseSize`. -/
def parseSize : Parser UInt8 ℕ := parseInt32

/-- `ParseSourceSegmentLengthAndPosition`. -/
def parseSourceSegmentLengthAndPosition (fromSize : ℕ) : Parser UInt8 (ℕ × ℕ) := do
  let length ← parseSize
  Parser.check (¬length > fromSize)
  let position ← parseSize
  Parser.check (¬(position ≥ fromSize ∧ length > 0))
  Parser.check (¬position + length > fromSize)
  return (length, position)

/-- `ParseWinIndicatorAndSourceSegment`: the window indicator, and the length and position of the
source segment. Without a source segment the length is what it was before. -/
def parseWinIndicatorAndSourceSegment (dictionarySize decodedTargetSize : ℕ)
    (allowVcdTarget : Bool) (sourceSegmentLength : ℕ) : Parser UInt8 (UInt8 × ℕ × ℕ) := do
  let winIndicator ← parseByte
  let sourceTargetFlags := winIndicator &&& (VCD_SOURCE ||| VCD_TARGET)
  if sourceTargetFlags = VCD_SOURCE then do
    let segment ← parseSourceSegmentLengthAndPosition dictionarySize
    return (winIndicator, segment)
  else if sourceTargetFlags = VCD_TARGET then do
    Parser.check (allowVcdTarget = true)
    let segment ← parseSourceSegmentLengthAndPosition decodedTargetSize
    return (winIndicator, segment)
  else if sourceTargetFlags = VCD_SOURCE ||| VCD_TARGET then Parser.fail
  else return (winIndicator, sourceSegmentLength, 0)

/-- `ParseDeltaIndicator`. -/
def parseDeltaIndicator : Parser UInt8 Unit := do
  let deltaIndicator ← parseByte
  Parser.check (deltaIndicator &&& VCD_COMP = 0)

/-- The lengths of the three sections and the checksum. -/
structure SectionLengths where
  addAndRunData : ℕ
  instructionsAndSizes : ℕ
  addresses : ℕ
  checksum : ℕ
  deriving DecidableEq, Repr

/-- The sum of the lengths of the sections. -/
def SectionLengths.total (l : SectionLengths) : ℕ :=
  l.addAndRunData + l.instructionsAndSizes + l.addresses

/-- The checksum, if there is one; else the old value is kept. -/
def parseChecksumIf (hasChecksum : Bool) (checksum : ℕ) : Parser UInt8 ℕ :=
  if hasChecksum then parseChecksum else pure checksum

/-- The fields that `ParseSectionLengths` reads. -/
def parseLengths (hasChecksum : Bool) (checksum : ℕ) : Parser UInt8 SectionLengths := do
  let addAndRunData ← parseSize
  let instructionsAndSizes ← parseSize
  let addresses ← parseSize
  let checksum ← parseChecksumIf hasChecksum checksum
  return ⟨addAndRunData, instructionsAndSizes, addresses, checksum⟩

/-! ## Parsers that can wait for more data -/

theorem stable_parseUInt32 : parseUInt32.Stable :=
  VarintBE.stable_parse.bind fun _ => (Parser.stable_check _).bind fun _ => Parser.stable_pure _

theorem stable_parseSourceSegmentLengthAndPosition (n : ℕ) :
    (parseSourceSegmentLengthAndPosition n).Stable :=
  VarintBE.stable_parse.bind fun _ => (Parser.stable_check _).bind fun _ =>
    VarintBE.stable_parse.bind fun _ => (Parser.stable_check _).bind fun _ =>
      (Parser.stable_check _).bind fun _ => Parser.stable_pure _

theorem stable_parseWinIndicatorAndSourceSegment (n m : ℕ) (b : Bool) (k : ℕ) :
    (parseWinIndicatorAndSourceSegment n m b k).Stable := by
  refine Parser.stable_next.bind fun _ => ?_
  apply Parser.Stable.ite
  · exact (stable_parseSourceSegmentLengthAndPosition n).bind fun _ => Parser.stable_pure _
  apply Parser.Stable.ite
  · exact (Parser.stable_check _).bind fun _ =>
      (stable_parseSourceSegmentLengthAndPosition m).bind fun _ => Parser.stable_pure _
  · exact Parser.stable_fail.ite (Parser.stable_pure _)

theorem stable_parseDeltaIndicator : parseDeltaIndicator.Stable :=
  Parser.stable_next.bind fun _ => Parser.stable_check _

theorem stable_parseLengths (b : Bool) (k : ℕ) : (parseLengths b k).Stable :=
  VarintBE.stable_parse.bind fun _ => VarintBE.stable_parse.bind fun _ =>
    VarintBE.stable_parse.bind fun _ => (stable_parseUInt32.ite (Parser.stable_pure _)).bind
      fun _ => Parser.stable_pure _

end HeaderParser

end OpenVcdiff
