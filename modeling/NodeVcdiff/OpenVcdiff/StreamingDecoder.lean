import NodeVcdiff.OpenVcdiff.VcDecoder

/-!
# `vcdecoder.cc`: decoding chunks

What is not parsed of a chunk is kept in front of the next one. A custom code table in the header of
the delta file is itself a delta file, which another decoder decodes.
-/

namespace OpenVcdiff

open Incremental (Parsed Parser)

/-! ## Headers are parsed from the front -/

namespace HeaderParser

theorem leaves_parseSourceSegmentLengthAndPosition (n : ℕ) :
    (parseSourceSegmentLengthAndPosition n).Leaves :=
  VarintBE.leaves_parse.bind fun _ => (Parser.leaves_check _).bind fun _ =>
    VarintBE.leaves_parse.bind fun _ => (Parser.leaves_check _).bind fun _ =>
      (Parser.leaves_check _).bind fun _ => Parser.leaves_pure _

theorem leaves_parseUInt32 : parseUInt32.Leaves :=
  VarintBE.leaves_parse.bind fun _ => (Parser.leaves_check _).bind fun _ => Parser.leaves_pure _

theorem leaves_parseLengths (b : Bool) (k : ℕ) : (parseLengths b k).Leaves :=
  VarintBE.leaves_parse.bind fun _ => VarintBE.leaves_parse.bind fun _ =>
    VarintBE.leaves_parse.bind fun _ => (leaves_parseUInt32.ite (Parser.leaves_pure _)).bind
      fun _ => Parser.leaves_pure _

theorem leaves_parseDeltaIndicator : parseDeltaIndicator.Leaves :=
  Parser.leaves_next.bind fun _ => Parser.leaves_check _

end HeaderParser

namespace DecoderState

variable {D D' : DecoderState} {chunk rest : List UInt8}

theorem leaves_parseEncodingHeader (D : DecoderState) (b : UInt8) :
    (D.parseEncodingHeader b).Leaves :=
  VarintBE.leaves_parse.bind fun _ => (Parser.leaves_check _).bind fun _ =>
    HeaderParser.leaves_parseDeltaIndicator.bind fun _ =>
      (HeaderParser.leaves_parseLengths _ _).bind fun _ => Parser.leaves_pure _

/-- A window header has at least a window indicator. -/
theorem consumes_parseHeader (D : DecoderState) : D.parseHeader.Consumes := by
  refine Parser.Consumes.bind (Parser.consumes_next.bind fun _ => ?_) fun _ => ?_
  · apply Parser.Leaves.ite
    · exact (HeaderParser.leaves_parseSourceSegmentLengthAndPosition _).bind fun _ =>
        Parser.leaves_pure _
    apply Parser.Leaves.ite
    · exact (Parser.leaves_check _).bind fun _ =>
        (HeaderParser.leaves_parseSourceSegmentLengthAndPosition _).bind fun _ =>
          Parser.leaves_pure _
    · exact Parser.leaves_fail.ite (Parser.leaves_pure _)
  · exact VarintBE.leaves_parse.bind fun _ => (leaves_parseEncodingHeader D _).counted.bind
      fun _ => (Parser.leaves_check _).bind fun _ => Parser.leaves_pure _

theorem readHeader_success (h : D.readHeader chunk = (.success, D', rest)) :
    rest.length < chunk.length := by
  unfold readHeader at h
  cases hp : D.parseHeader chunk with
  | success header rest' =>
    rw [hp] at h
    simp only at h
    split at h
    · cases h
    · cases h
      exact consumes_parseHeader D _ _ _ hp
  | error => rw [hp] at h; cases h
  | endOfData => rw [hp] at h; cases h

theorem length_updateInstructionPointer (D : DecoderState) (start : ℕ) :
    (D.updateInstructionPointer start chunk).2.length ≤ chunk.length := by
  unfold updateInstructionPointer
  split
  · simp only [List.length_drop]
    omega
  · exact Nat.le_refl _

theorem length_decodeBody (D : DecoderState) : (D.decodeBody chunk).2.2.length ≤ chunk.length := by
  unfold decodeBody
  simp only
  generalize decodeLoop.run D = r
  obtain ⟨_ | _ | _, D'⟩ := r
  · simp only
    split_ifs
    · exact Nat.le_refl _
    · exact Nat.le_refl _
    · exact Nat.le_refl _
    · exact length_updateInstructionPointer _ _
    · exact Nat.le_refl _
    · exact Nat.le_refl _
    · simp only [List.length_drop]
      omega
  · exact Nat.le_refl _
  · exact length_updateInstructionPointer _ _

theorem finishWindow_success (h : D.finishWindow chunk = (.success, D', rest)) :
    rest.length ≤ chunk.length ∧ D'.deltaWindow.foundHeader = false := by
  have hlen : (D.decodeBody chunk).2.2.length ≤ chunk.length := length_decodeBody D
  unfold finishWindow at h
  generalize D.decodeBody chunk = r at *
  obtain ⟨_ | _ | _, D'', chunk'⟩ := r
  · cases h
    exact ⟨hlen, rfl⟩
  · cases h
  · simp only at h
    split at h
    · cases h
    · cases h

/-- A window that is decoded was read from the chunk, or it is the rest of one that was read
before. -/
theorem decodeWindow_success (h : D.decodeWindow chunk = (.success, D', rest)) :
    D'.deltaWindow.foundHeader = false ∧ rest.length ≤ chunk.length ∧
      (D.deltaWindow.foundHeader = false → rest.length < chunk.length) := by
  unfold decodeWindow at h
  cases hfound : D.deltaWindow.foundHeader with
  | false =>
    rw [hfound] at h
    simp only [Bool.not_false, if_true] at h
    cases hr : D.readHeader chunk with
    | mk r p =>
      rw [hr] at h
      cases r with
      | endOfData => cases h
      | error => cases h
      | success =>
        simp only at h
        have hlt := readHeader_success hr
        split at h
        · cases h
        · obtain ⟨hle, hdone⟩ := finishWindow_success h
          exact ⟨hdone, by omega, fun _ => by omega⟩
  | true =>
    rw [hfound] at h
    simp only [Bool.not_true, Bool.false_eq_true, if_false] at h
    split at h
    · cases h
    · obtain ⟨hle, hdone⟩ := finishWindow_success h
      exact ⟨hdone, hle, fun hf => by cases hf⟩

/-! ## Windows -/

variable (D)

/-- `ReachedPlannedTargetFileSize`. It is not exceeded unless there is an internal error. -/
def reachedPlannedTargetFileSize : Bool :=
  match D.plannedTargetFileSize with
  | none => false
  | some planned => decide (D.totalOfTargetWindowSizes ≥ planned)

/-- What `FlushDecodedTarget` and `AppendNewOutputText` append to the output. -/
def newOutputText : List UInt8 := D.decodedTarget.drop D.decodedTargetOutputPosition

/-- The decoder after `FlushDecodedTarget`. -/
def flushDecodedTarget : DecoderState :=
  { D with decodedTarget := [], decodedTargetOutputPosition := 0 }.withWindow
    { D.deltaWindow with targetWindowStartPos := 0 }

/-- The decoder after `AppendNewOutputText` at the end of a chunk of which `rest` was not parsed. -/
def afterChunk (rest : List UInt8) : DecoderState :=
  { D with unparsedBytes := rest, decodedTargetOutputPosition := D.decodedTarget.length }

/-- The loop in `DecodeChunk` over the windows of the chunk. Its state has what was flushed. -/
def windowLoop : Loop (DecoderState × List UInt8 × List UInt8)
    (VCDiffResult × DecoderState × List UInt8 × List UInt8) where
  body := fun (D, chunk, out) =>
    if chunk = [] then .inr (.success, D, chunk, out)
    else
      match D.decodeWindow chunk with
      | (.success, D, chunk) =>
        if D.reachedPlannedTargetFileSize then .inr (.success, D, chunk, out)
        else if !D.allowVcdTarget then
          .inl (D.flushDecodedTarget, chunk, out ++ D.newOutputText)
        else .inl (D, chunk, out)
      | (result, D, chunk) => .inr (result, D, chunk, out)
  size := fun (D, chunk, _) => 2 * chunk.length + if D.deltaWindow.foundHeader then 1 else 0
  shrinks := by
    rintro ⟨D, chunk, out⟩ ⟨D', chunk', out'⟩ h
    simp only at h ⊢
    split at h
    · cases h
    · split at h
      · next D'' rest hw =>
        obtain ⟨hfound, hle, hlt⟩ := decodeWindow_success hw
        have hmeasure : 2 * rest.length + (if D''.deltaWindow.foundHeader then 1 else 0) <
            2 * chunk.length + if D.deltaWindow.foundHeader then 1 else 0 := by
          rw [hfound]
          by_cases hD : D.deltaWindow.foundHeader = true
          · rw [if_pos hD, if_neg Bool.false_ne_true]
            omega
          · have := hlt (Bool.eq_false_of_not_eq_true hD)
            rw [if_neg hD, if_neg Bool.false_ne_true]
            omega
        split at h
        · cases h
        · split at h
          · cases h
            exact hmeasure
          · cases h
            exact hmeasure
      · cases h

/-! ## The file header -/

/-- `VCDiffStreamingDecoderImpl::Reset`. The code table of the reader stays. -/
def reset : DecoderState :=
  { D with
    startDecodingWasCalled := false
    dictionary := []
    vcdiffVersionCode := 0
    plannedTargetFileSize := none
    totalOfTargetWindowSizes := 0
    addrCache := none
    decodedTargetOutputPosition := 0 }.resetWindow

/-- The constructor. -/
def new : DecoderState where
  startDecodingWasCalled := false
  dictionary := []
  unparsedBytes := []
  decodedTarget := []
  vcdiffVersionCode := 0
  deltaWindow :=
    { foundHeader := false
      sourceSegment := []
      sections := .separate [] [] []
      interleavedBytesExpected := 0
      targetWindowLength := 0
      targetWindowStartPos := 0
      hasChecksum := false
      expectedChecksum := 0
      reader := .new }
  addrCache := none
  customCodeTableString := []
  plannedTargetFileSize := none
  maximumTargetFileSize := kDefaultMaximumTargetFileSize
  maximumTargetWindowSize := kDefaultMaximumTargetFileSize
  totalOfTargetWindowSizes := 0
  decodedTargetOutputPosition := 0
  allowVcdTarget := true

/-- `StartDecoding`. -/
def startDecoding (dictionary : List UInt8) : DecoderState :=
  if D.startDecodingWasCalled then D
  else
    { { D with unparsedBytes := [], decodedTarget := [] }.reset with
      dictionary, startDecodingWasCalled := true }

/-- `sizeof(VCDiffCodeTableData)`. -/
def kCodeTableDataSize : ℕ := 6 * kCodeTableSize

/-- The decoder of a custom code table. -/
def newCodeTableDecoder : DecoderState :=
  { new.startDecoding CodeTableData.kDefaultCodeTableData.toBytes with
    plannedTargetFileSize := some kCodeTableDataSize }

/-- The cache sizes that `InitCustomCodeTable` parses. -/
def parseCacheSizes : Parser UInt8 (ℕ × ℕ) := do
  let nearCacheSize ← HeaderParser.parseInt32
  let sameCacheSize ← HeaderParser.parseInt32
  return (nearCacheSize, sameCacheSize)

/-- What `ReadDeltaFileHeader` finds. -/
inductive FileHeader where
  | error
  | endOfData
  | standard (D : DecoderState) (rest : List UInt8)
  | customCodeTable (D : DecoderState) (rest : List UInt8)

/-- `ReadDeltaFileHeader` of a file whose header was not found yet, with `InitCustomCodeTable`. As
many bytes are verified as are available. The version code, which is not used before the header is
complete, is assigned then. -/
def readDeltaFileHeader (data : List UInt8) : FileHeader :=
  let version := data.getD 3 0
  let indicator := data.getD 4 0
  if 4 ≤ data.length ∧ version ≠ 0x00 ∧ version ≠ 0x53 then .error
  else if data.take 3 ≠ [0xD6, 0xC3, 0xC4].take data.length then .error
  else if data.length < 5 then .endOfData
  else if indicator &&& VCD_DECOMPRESS ≠ 0 then .error
  else if indicator &&& VCD_CODETABLE ≠ 0 then
    match parseCacheSizes (data.drop 5) with
    | .error => .error
    | .endOfData => .endOfData
    | .success (near, same) rest =>
      .customCodeTable
        { D with
          vcdiffVersionCode := version
          customCodeTableString := []
          addrCache := some (.new near same) } rest
  else .standard { D with vcdiffVersionCode := version, addrCache := some .default } (data.drop 5)

theorem length_of_customCodeTable {data : List UInt8}
    (h : D.readDeltaFileHeader data = .customCodeTable D' rest) : rest.length + 5 ≤ data.length := by
  unfold readDeltaFileHeader at h
  simp only at h
  split_ifs at h with _ _ hlen _ _
  cases hp : parseCacheSizes (data.drop 5) with
  | success sizes rest' =>
    rw [hp] at h
    cases h
    have hleaves : parseCacheSizes.Leaves :=
      VarintBE.leaves_parse.bind fun _ => VarintBE.leaves_parse.bind fun _ => Parser.leaves_pure _
    have := (hleaves _ _ _ hp).length_le
    rw [List.length_drop] at this
    omega
  | error => rw [hp] at h; cases h
  | endOfData => rw [hp] at h; cases h

end DecoderState

/-- `VCDiffStreamingDecoderImpl` with the decoders of custom code tables inside it, the outermost
first: `custom_code_table_decoder_` may have one of its own. -/
structure StreamingDecoder where
  decoder : DecoderState
  customCodeTableDecoders : List DecoderState
  deriving DecidableEq

namespace StreamingDecoder

open DecoderState (kCodeTableDataSize newCodeTableDecoder)

/-- The constructor. -/
def new : StreamingDecoder := ⟨.new, []⟩

variable (S : StreamingDecoder)

/-- `Reset`. -/
def reset : StreamingDecoder := ⟨S.decoder.reset, []⟩

/-- `StartDecoding`. -/
def startDecoding (dictionary : List UInt8) : StreamingDecoder :=
  if S.decoder.startDecodingWasCalled then S else ⟨S.decoder.startDecoding dictionary, []⟩

/-- `IsDecodingComplete`. -/
def isDecodingComplete : Bool :=
  if S.decoder.addrCache = none then decide (S.decoder.unparsedBytes = [])
  else if S.customCodeTableDecoders ≠ [] then false
  else if S.decoder.deltaWindow.foundHeader then false
  else if S.decoder.reachedPlannedTargetFileSize then true
  else decide (S.decoder.unparsedBytes = [])

/-- `FinishDecoding`. -/
def finishDecoding : Bool × StreamingDecoder :=
  (S.decoder.startDecodingWasCalled && S.isDecodingComplete, S.reset)

/-- The end of `DecodeChunk`: whether it succeeds, what it appended to the output, and the decoder,
which keeps what was not parsed. -/
def finishChunk (result : VCDiffResult) (chunk out : List UInt8) :
    Bool × List UInt8 × StreamingDecoder :=
  if result = .error then (false, out, S.reset)
  else
    (true, out ++ S.decoder.newOutputText, { S with decoder := S.decoder.afterChunk chunk })

/-- `DecodeChunk` from the loop over the windows on. There is no custom code table to decode. -/
def decodeWindows (D : DecoderState) (chunk : List UInt8) : Bool × List UInt8 × StreamingDecoder :=
  match DecoderState.windowLoop.run (D, chunk, []) with
  | (result, D, chunk, out) => finishChunk ⟨D, []⟩ result chunk out

/-- `DecodeChunk` from `ReadCustomCodeTable` on, when the decoder of the custom code table has
decoded the chunk. Whether the reader takes the code table is not looked at. -/
def readCustomCodeTable (D : DecoderState) (chunk : List UInt8)
    (r : Bool × List UInt8 × StreamingDecoder) : Bool × List UInt8 × StreamingDecoder :=
  let (success, out, nested) := r
  let text := D.customCodeTableString ++ out
  let D := { D with customCodeTableString := text }
  if !success then finishChunk ⟨D, []⟩ .error [] []
  else if text.length < kCodeTableDataSize then
    finishChunk ⟨D, nested.decoder :: nested.customCodeTableDecoders⟩ .endOfData [] []
  else if !nested.finishDecoding.1 then finishChunk ⟨D, []⟩ .error [] []
  else if h : text.length = kCodeTableDataSize then
    match D.addrCache with
    | none => finishChunk ⟨D, []⟩ .error [] []
    | some cache =>
      let reader :=
        (D.deltaWindow.reader.useCodeTable (CodeTableData.ofBytes text h) cache.lastMode).2
      -- the nested decoder has not consumed the data of the enclosing file
      let unconsumed := nested.decoder.unparsedBytes.length
      decodeWindows
        ({ D with customCodeTableString := [] }.withWindow { D.deltaWindow with reader })
        (if unconsumed > chunk.length then [] else chunk.drop (chunk.length - unconsumed))
  else finishChunk ⟨D, []⟩ .error [] []

/-- `DecodeChunk`, which calls `DecodeChunk` of the decoder of a custom code table. -/
def chunkRecursion : Recursion (StreamingDecoder × List UInt8)
    (Bool × List UInt8 × StreamingDecoder) where
  body := fun (S, data) =>
    if !S.decoder.startDecodingWasCalled then .inl (false, [], S.reset)
    else
      let chunk := S.decoder.unparsedBytes ++ data
      if S.decoder.addrCache ≠ none then
        match S.customCodeTableDecoders with
        | [] => .inl (decodeWindows S.decoder chunk)
        | nested :: inner => .inr ((⟨nested, inner⟩, chunk), readCustomCodeTable S.decoder chunk)
      else
        match S.decoder.readDeltaFileHeader chunk with
        | .error => .inl (S.finishChunk .error [] [])
        | .endOfData => .inl (S.finishChunk .endOfData chunk [])
        | .standard D rest => .inl (decodeWindows D rest)
        | .customCodeTable D rest =>
          .inr ((⟨newCodeTableDecoder, []⟩, rest), readCustomCodeTable D rest)
  size := fun (S, data) => data.length + S.decoder.unparsedBytes.length +
    (S.customCodeTableDecoders.map fun D => D.unparsedBytes.length + 1).sum
  shrinks := by
    rintro ⟨S, data⟩ ⟨T, data'⟩ k h
    simp only at h ⊢
    split at h
    · cases h
    · split at h
      · split at h
        · cases h
        · next nested inner heq =>
          cases h
          rw [heq, List.length_append, List.map_cons, List.sum_cons]
          simp only
          omega
      · split at h
        · cases h
        · cases h
        · cases h
        · next D rest hr =>
          cases h
          have := DecoderState.length_of_customCodeTable _ hr
          rw [List.length_append] at this
          have h0 : newCodeTableDecoder.unparsedBytes.length = 0 := rfl
          rw [h0, List.map_nil, List.sum_nil]
          omega

/-- `DecodeChunk`: whether it succeeds, what it appends to the output, and the decoder. -/
def decodeChunk (data : List UInt8) : Bool × List UInt8 × StreamingDecoder :=
  chunkRecursion.run (S, data)

/-- `SetMaximumTargetFileSize`. -/
def setMaximumTargetFileSize (newMaximumTargetFileSize : ℕ) : Bool × StreamingDecoder :=
  (true, { S with decoder := { S.decoder with maximumTargetFileSize := newMaximumTargetFileSize } })

/-- `SetMaximumTargetWindowSize`. -/
def setMaximumTargetWindowSize (newMaximumTargetWindowSize : ℕ) : Bool × StreamingDecoder :=
  if newMaximumTargetWindowSize > kTargetSizeLimit then (false, S)
  else
    (true, { S with
      decoder := { S.decoder with maximumTargetWindowSize := newMaximumTargetWindowSize } })

/-- `SetAllowVcdTarget`. -/
def setAllowVcdTarget (allowVcdTarget : Bool) : StreamingDecoder :=
  if S.decoder.startDecodingWasCalled then S
  else { S with decoder := { S.decoder with allowVcdTarget } }

/-- `GetUnconsumedDataSize`. -/
def getUnconsumedDataSize : ℕ := S.decoder.unparsedBytes.length

/-- `VCDiffDecoder::DecodeToInterface`. The output is cleared first. -/
def decode (dictionary encoding : List UInt8) : Bool × List UInt8 × StreamingDecoder :=
  match (S.startDecoding dictionary).decodeChunk encoding with
  | (false, out, S) => (false, out, S)
  | (true, out, S) => (S.finishDecoding.1, out, S.finishDecoding.2)

end StreamingDecoder

end OpenVcdiff
