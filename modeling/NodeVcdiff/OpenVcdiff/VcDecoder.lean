import NodeVcdiff.OpenVcdiff.Execution

/-!
# `vcdecoder.cc`: the streaming decoder

`VCDiffStreamingDecoderImpl` decodes windows out of chunks of data. What is not parsed yet is kept
for the next chunk. A custom code table is decoded by another decoder of the same kind.
-/

namespace OpenVcdiff

open Incremental (Parsed Parser)

/-- `VCD_DECOMPRESS`. -/
def VCD_DECOMPRESS : UInt8 := 0x01

/-- `VCD_CODETABLE`. -/
def VCD_CODETABLE : UInt8 := 0x02

/-- `kDefaultMaximumTargetFileSize`. -/
def kDefaultMaximumTargetFileSize : ℕ := 67108864

/-- `kTargetSizeLimit`. -/
def kTargetSizeLimit : ℕ := 2147483647

namespace DecoderState

variable (D : DecoderState)

/-! ## The body of a window -/

section Rounds

variable {D} {D' : DecoderState} {inst : UInt8} {size mode : ℕ}

/-- How much there is to read. -/
def remaining (D : DecoderState) : ℕ :=
  CodeTableReader.remaining D.deltaWindow.reader.pendingSecondInstruction
    D.deltaWindow.sections.instructions

@[simp] theorem instructions_setInstructions (s : Sections) (rest : List UInt8) :
    (s.setInstructions rest).instructions = rest := by cases s <;> rfl

@[simp] theorem isInterleaved_setInstructions (s : Sections) (rest : List UInt8) :
    (s.setInstructions rest).isInterleaved = s.isInterleaved := by cases s <;> rfl

/-- A round that succeeds reads something. -/
theorem remaining_lt (h : D.decodeInstruction = (.success, D')) : D'.remaining < D.remaining := by
  unfold decodeInstruction at h
  simp only at h
  generalize hr :
    D.deltaWindow.reader.getNextInstruction D.deltaWindow.sections.instructions = r at h
  obtain ⟨next, reader, rest⟩ := r
  simp only at h
  split at h
  · cases h
  · cases h
  · next inst size mode =>
    obtain ⟨-, -, hlt, -⟩ := CodeTableReader.getNextInstruction_instruction _ hr
    split at h
    · cases h
    · rcases execute_cases (D.afterNext reader rest) inst size mode.toNat with
        ⟨D'', heq, hex⟩ | heq | heq
      · rw [heq] at h
        cases h
        obtain ⟨target, cache, hframe⟩ := hex.frame
        have hpending : D''.deltaWindow.reader = reader := by rw [hframe]; rfl
        have hinstr : D''.deltaWindow.sections.instructions <:+ rest := by
          have := hex.instructions
          rwa [afterNext, withWindow, instructions_setInstructions] at this
        unfold remaining
        rw [hpending]
        exact Nat.lt_of_le_of_lt (CodeTableReader.remaining_le_of_suffix hinstr _) hlt
      · rw [heq] at h; cases h
      · rw [heq] at h; cases h

end Rounds

/-- The loop of `DecodeBody`. -/
def decodeLoop : Loop DecoderState (VCDiffResult × DecoderState) where
  body D :=
    if D.targetBytesDecoded < D.deltaWindow.targetWindowLength then
      match D.decodeInstruction with
      | (.success, D') => .inl D'
      | r => .inr r
    else .inr (.success, D)
  size := remaining
  shrinks := by
    intro D D' h
    split at h
    · split at h
      · next heq => cases h; exact remaining_lt heq
      · cases h
    · cases h

/-- `UpdateInstructionPointer`, for a section of which `start` bytes were left before. -/
def updateInstructionPointer (start : ℕ) (chunk : List UInt8) : DecoderState × List UInt8 :=
  if D.deltaWindow.sections.isInterleaved then
    let bytesParsed := start - D.deltaWindow.sections.instructions.length
    (D.withWindow
      { D.deltaWindow with
        interleavedBytesExpected := D.deltaWindow.interleavedBytesExpected - bytesParsed },
      chunk.drop bytesParsed)
  else (D, chunk)

/-- The target window that was decoded. -/
def targetWindow : List UInt8 :=
  (D.decodedTarget.drop D.deltaWindow.targetWindowStartPos).take D.deltaWindow.targetWindowLength

/-- `DecodeBody`. -/
def decodeBody (chunk : List UInt8) : VCDiffResult × DecoderState × List UInt8 :=
  let start := D.deltaWindow.sections.instructions.length
  let length := D.deltaWindow.sections.length
  match decodeLoop.run D with
  | (.endOfData, D) => (.endOfData, D.updateInstructionPointer start chunk)
  | (.error, D) => (.error, D, chunk)
  | (.success, D) =>
    if D.targetBytesDecoded ≠ D.deltaWindow.targetWindowLength then (.error, D, chunk)
    else if D.deltaWindow.hasChecksum = true ∧
        Adler32.computeAdler32 D.targetWindow ≠ D.deltaWindow.expectedChecksum then
      (.error, D, chunk)
    else if D.deltaWindow.sections.instructions ≠ [] then (.error, D, chunk)
    else if D.deltaWindow.sections.isInterleaved then
      (.success, D.updateInstructionPointer start chunk)
    else if D.deltaWindow.sections.data ≠ [] then (.error, D, chunk)
    else if D.deltaWindow.sections.addresses ≠ [] then (.error, D, chunk)
    else (.success, D, chunk.drop length)

/-- `MoreDataExpected`. -/
def moreDataExpected : Bool :=
  D.deltaWindow.sections.isInterleaved && decide (D.deltaWindow.interleavedBytesExpected > 0)

/-- The end of `DecodeWindow`: the body is decoded and the window is reset. -/
def finishWindow (chunk : List UInt8) : VCDiffResult × DecoderState × List UInt8 :=
  match D.decodeBody chunk with
  | (.endOfData, D, chunk) =>
    if D.moreDataExpected then (.endOfData, D, chunk) else (.error, D, chunk)
  | (.error, D, chunk) => (.error, D, chunk)
  | (.success, D, chunk) => (.success, D.resetWindow, chunk)

/-- `DecodeWindow`. -/
def decodeWindow (chunk : List UInt8) : VCDiffResult × DecoderState × List UInt8 :=
  if !D.deltaWindow.foundHeader then
    match D.readHeader chunk with
    | (.endOfData, D, chunk) => (.endOfData, D, chunk)
    | (.error, D, chunk) => (.error, D, chunk)
    | (.success, D, chunk) =>
      match D.addrCache.bind AddressCache.init with
      | none => (.error, D, chunk)
      | some cache => { D with addrCache := some cache }.finishWindow chunk
  else if !D.deltaWindow.sections.isInterleaved then (.error, D, chunk)
  else
    let sections := chunk.take D.deltaWindow.interleavedBytesExpected
    (D.withWindow
      { D.deltaWindow with
        sections := .interleaved sections
        reader := D.deltaWindow.reader.updatePointers sections }).finishWindow chunk

end DecoderState

end OpenVcdiff
