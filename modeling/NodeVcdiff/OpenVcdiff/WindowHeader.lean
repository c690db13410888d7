import NodeVcdiff.OpenVcdiff.ReaderLayout

/-!
# The header of a window

The header that the writer puts in front of its sections is the one that the decoder reads.
-/

namespace OpenVcdiff

open Incremental (Parsed Parser)
open SelfCopy (Instruction)

theorem reads_sizeBytes {n : ℕ} (h : n ≤ VarintBE.kMaxVal .int32) :
    HeaderParser.parseSize.Reads (CodeTableWriter.sizeBytes n) n := by
  rw [CodeTableWriter.sizeBytes, toInt32_of_lt (Nat.lt_succ_of_le h)]
  exact VarintBE.reads_encode h

theorem length_sizeBytes {n : ℕ} (h : n ≤ VarintBE.kMaxVal .int32) :
    (CodeTableWriter.sizeBytes n).length = CodeTableWriter.calculateLengthOfSizeAsVarint n := by
  rw [CodeTableWriter.sizeBytes, CodeTableWriter.calculateLengthOfSizeAsVarint,
    toInt32_of_lt (Nat.lt_succ_of_le h)]
  exact VarintBE.length_encode h

namespace CodeTableWriter

variable (w : CodeTableWriter)

/-- The checksum in the header. -/
def checksumBytes : List UInt8 := if w.addChecksum then VarintBE.encode .int64 w.checksum else []

/-- The header of the delta encoding. -/
def encodingHeader : List UInt8 :=
  sizeBytes w.targetLength ++ ([0x00] ++ (sizeBytes w.separateDataForAddAndRun.length ++
    (sizeBytes w.instructionsAndSizes.length ++ (sizeBytes w.separateAddressesForCopy.length ++
      w.checksumBytes))))

/-- The sections after the header. -/
def body : List UInt8 :=
  w.separateDataForAddAndRun ++ (w.instructionsAndSizes ++ w.separateAddressesForCopy)

/-- The window indicator. -/
def winIndicator : UInt8 := if w.addChecksum then VCD_SOURCE ||| VCD_CHECKSUM else VCD_SOURCE

/-- The header of the window. -/
def windowHeader : List UInt8 :=
  ([w.winIndicator] ++ (sizeBytes w.dictionarySize ++ sizeBytes 0)) ++
    (sizeBytes w.calculateLengthOfTheDeltaEncoding ++ w.encodingHeader)

/-- The fields of the header, of which the checksum is kept if there is none. -/
def header (checksum : ℕ) : DecoderState.Header where
  winIndicator := w.winIndicator
  sourceSegmentLength := w.dictionarySize
  sourceSegmentPosition := 0
  targetWindowLength := w.targetLength
  lengths :=
    { addAndRunData := w.separateDataForAddAndRun.length
      instructionsAndSizes := w.instructionsAndSizes.length
      addresses := w.separateAddressesForCopy.length
      checksum := if w.addChecksum then w.checksum else checksum }

/-- The lengths in the header are integers. -/
structure Fits : Prop where
  dictionary : w.dictionarySize ≤ VarintBE.kMaxVal .int32
  target : w.targetLength ≤ VarintBE.kMaxVal .int32
  encoding : w.encodingHeader.length + w.body.length ≤ VarintBE.kMaxVal .int32
  checksum : w.checksum ≤ 0xFFFFFFFF

variable {w}

theorem deltaEncoding_eq : w.deltaEncoding = w.encodingHeader ++ w.body := by
  simp only [deltaEncoding, encodingHeader, body, checksumBytes, List.append_assoc]

theorem output_eq (h : w.instructionsAndSizes ≠ []) : w.output.1 = w.windowHeader ++ w.body := by
  unfold output
  rw [if_neg h, deltaEncoding_eq]
  unfold windowHeader winIndicator
  rw [List.singleton_append]
  simp -implicitDefEqProofs only [List.append_assoc, List.cons_append]

theorem Fits.lengths (h : w.Fits) :
    w.separateDataForAddAndRun.length ≤ VarintBE.kMaxVal .int32 ∧
    w.instructionsAndSizes.length ≤ VarintBE.kMaxVal .int32 ∧
    w.separateAddressesForCopy.length ≤ VarintBE.kMaxVal .int32 := by
  have := h.encoding
  simp only [body, List.length_append] at this
  omega

/-- The length that is calculated before is the length of what is written. -/
theorem calculateLengthOfTheDeltaEncoding_eq (h : w.Fits) :
    w.calculateLengthOfTheDeltaEncoding = w.encodingHeader.length + w.body.length := by
  obtain ⟨hd, hi, ha⟩ := h.lengths
  have hcheck : w.checksumBytes.length =
      if w.addChecksum then VarintBE.length .int64 w.checksum else 0 := by
    unfold checksumBytes
    split
    · apply VarintBE.length_encode
      have := h.checksum
      show _ ≤ 0x7FFFFFFFFFFFFFFF
      omega
    · rfl
  simp only [calculateLengthOfTheDeltaEncoding, encodingHeader, body, List.length_append,
    List.length_singleton, length_sizeBytes h.target, length_sizeBytes hd, length_sizeBytes hi,
    length_sizeBytes ha, hcheck]
  omega

end CodeTableWriter

/-! ## Reading it -/

namespace DecoderState

variable {D : DecoderState} {w : CodeTableWriter}

/-- The decoder can read windows of the writer: it has the dictionary, and the extensions that
the writer uses are allowed. -/
structure Accepts (D : DecoderState) (w : CodeTableWriter) : Prop where
  dictionary : w.dictionarySize = D.dictionary.length
  interleaved : w.interleaved = true → D.allowExtensions = true
  checksum : w.addChecksum = true → D.allowExtensions = true
  limits : D.targetWindowWouldExceedSizeLimits w.targetLength = false

theorem reads_segment (h : w.Fits) (hD : D.Accepts w) :
    (HeaderParser.parseWinIndicatorAndSourceSegment D.dictionary.length D.decodedTarget.length
      D.allowVcdTarget D.deltaWindow.sourceSegment.length).Reads
      ([w.winIndicator] ++ (CodeTableWriter.sizeBytes w.dictionarySize ++
        CodeTableWriter.sizeBytes 0)) (w.winIndicator, w.dictionarySize, 0) := by
  refine (Parser.reads_next _).bind ?_
  have hflags : w.winIndicator &&& (VCD_SOURCE ||| VCD_TARGET) = VCD_SOURCE := by
    unfold CodeTableWriter.winIndicator
    split <;> decide
  simp only [hflags, if_true]
  rw [← List.append_nil (_ ++ _)]
  refine Parser.Reads.bind (a := (w.dictionarySize, 0)) ?_ (Parser.reads_pure _)
  rw [← List.append_nil (CodeTableWriter.sizeBytes 0), ← hD.dictionary]
  refine (reads_sizeBytes h.dictionary).bind ?_
  refine (Parser.reads_check (Nat.lt_irrefl _)).bind_nil ?_
  refine (reads_sizeBytes (Nat.zero_le _)).bind ?_
  refine (Parser.reads_check (by omega)).bind_nil ?_
  exact (Parser.reads_check (by omega)).bind_nil (Parser.reads_pure _)

theorem headerHasChecksum_eq (hD : D.Accepts w) :
    D.headerHasChecksum w.winIndicator = w.addChecksum := by
  unfold headerHasChecksum CodeTableWriter.winIndicator
  cases hc : w.addChecksum with
  | true =>
    rw [hD.checksum hc]
    decide
  | false =>
    cases D.allowExtensions <;> decide

theorem reads_checksum (h : w.Fits) (checksum : ℕ) :
    (HeaderParser.parseChecksumIf w.addChecksum checksum).Reads w.checksumBytes
      (if w.addChecksum then w.checksum else checksum) := by
  unfold HeaderParser.parseChecksumIf CodeTableWriter.checksumBytes
  cases w.addChecksum with
  | true =>
    have hle : w.checksum ≤ VarintBE.kMaxVal .int64 := by
      have := h.checksum
      show _ ≤ 0x7FFFFFFFFFFFFFFF
      omega
    show HeaderParser.parseUInt32.Reads (VarintBE.encode .int64 w.checksum) w.checksum
    rw [← List.append_nil (VarintBE.encode _ _)]
    refine (VarintBE.reads_encode hle).bind ?_
    exact (Parser.reads_check (Nat.not_lt.mpr h.checksum)).bind_nil (Parser.reads_pure _)
  | false => exact Parser.reads_pure _

theorem reads_encodingHeader (h : w.Fits) (hD : D.Accepts w) :
    (D.parseEncodingHeader w.winIndicator).Reads w.encodingHeader
      (w.targetLength, (w.header D.deltaWindow.expectedChecksum).lengths) := by
  obtain ⟨hd, hi, ha⟩ := h.lengths
  refine (reads_sizeBytes h.target).bind ?_
  refine (Parser.reads_check hD.limits).bind_nil ?_
  refine Parser.Reads.bind (a := ()) ?_ ?_
  · rw [← List.append_nil [(0x00 : UInt8)]]
    exact (Parser.reads_next _).bind (Parser.reads_check (by decide))
  · rw [headerHasChecksum_eq hD, ← List.append_nil (CodeTableWriter.sizeBytes
      w.separateDataForAddAndRun.length ++ _)]
    refine Parser.Reads.bind ?_ (Parser.reads_pure _)
    refine (reads_sizeBytes hd).bind ?_
    refine (reads_sizeBytes hi).bind ?_
    refine (reads_sizeBytes ha).bind ?_
    rw [← List.append_nil w.checksumBytes]
    exact (reads_checksum h _).bind (Parser.reads_pure _)

/-- The header is read as it was written. -/
theorem reads_header (h : w.Fits) (hD : D.Accepts w) :
    D.parseHeader.Reads w.windowHeader (w.header D.deltaWindow.expectedChecksum) := by
  refine (reads_segment h hD).bind ?_
  have hlen : w.calculateLengthOfTheDeltaEncoding ≤ VarintBE.kMaxVal .int32 := by
    rw [CodeTableWriter.calculateLengthOfTheDeltaEncoding_eq h]
    exact h.encoding
  refine (reads_sizeBytes hlen).bind ?_
  rw [← List.append_nil w.encodingHeader]
  refine (reads_encodingHeader h hD).counted.bind ?_
  refine (Parser.reads_check ?_).bind_nil (Parser.reads_pure _)
  rw [CodeTableWriter.calculateLengthOfTheDeltaEncoding_eq h]
  simp only [HeaderParser.SectionLengths.total, CodeTableWriter.header, CodeTableWriter.body,
    List.length_append]
  omega

end DecoderState

end OpenVcdiff
