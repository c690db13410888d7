import NodeVcdiff.OpenVcdiff.EngineScript
import NodeVcdiff.OpenVcdiff.StreamingDecoder
import NodeVcdiff.OpenVcdiff.VcEncoder
import NodeVcdiff.OpenVcdiff.WindowRoundTrip

/-!
# A delta file is decoded to what was encoded

The encoder makes a window of each chunk of the target. The decoder takes one window after another
out of the file and appends their targets.
-/

namespace OpenVcdiff

open SelfCopy (Instruction)
open CodeTableWriterInterface (output addChecksum)

/-! ## The coder -/

namespace CodeTableWriter

variable {w : CodeTableWriter}

theorem Fresh.withChecksum (h : w.Fresh) (sum : ℕ) : (w.withChecksum sum).Fresh :=
  ⟨h.instructions, h.data, h.addresses, h.target, h.last, h.cache⟩

theorem Ready.withChecksum (h : w.Ready) (sum : ℕ) : (w.withChecksum sum).Ready :=
  ⟨h.map, h.valid, h.fits, h.modes⟩

/-- `Init` of a fresh writer changes nothing. -/
theorem Fresh.init (h : w.Fresh) (hr : w.Ready) : w.init w.dictionarySize = (true, w) := by
  have hcache := h.cache
  have hmap := hr.map
  obtain ⟨-, -, -, h4, h5, -⟩ := h
  unfold CodeTableWriter.init
  simp only [hcache, hmap, Option.getD_some]
  cases w
  simp only at h4 h5 hmap
  subst h4 h5 hmap
  rfl

/-- Two writers that only differ in the checksum of the next window. -/
def SameButChecksum (w w' : CodeTableWriter) : Prop :=
  ∃ b c, w' = { w with addChecksum := b, checksum := c }

theorem SameButChecksum.trans {w w' w'' : CodeTableWriter} (h : w.SameButChecksum w')
    (h' : w'.SameButChecksum w'') : w.SameButChecksum w'' := by
  obtain ⟨b, c, rfl⟩ := h
  obtain ⟨b', c', rfl⟩ := h'
  exact ⟨b', c', rfl⟩

end CodeTableWriter

theorem AnyCodeTableWriter.foldl_encode (w : CodeTableWriter) (is : List (Instruction UInt8)) :
    is.foldl CodeTableWriterInterface.encode (.inr w : AnyCodeTableWriter) =
      .inr (is.foldl CodeTableWriter.encode w) := by
  induction is generalizing w with
  | nil => rfl
  | cons i is ih =>
    cases i with
    | add data => exact ih (w.add data)
    | run size byte => exact ih (w.run size byte)
    | copy address size => exact ih (w.copy address size)

theorem AnyCodeTableWriter.output_inr (w : CodeTableWriter) :
    output (.inr w : AnyCodeTableWriter) = (w.output.1, .inr w.output.2) := rfl

/-! ## One window -/

namespace DecoderState

variable {D : DecoderState} {w : CodeTableWriter} {hashed : BlockHash} {chunk : List UInt8}

theorem Between.withChecksum (hb : D.Between w) (h : D.allowExtensions = true) (sum : ℕ) :
    D.Between (w.withChecksum sum) :=
  ⟨hb.foundHeader, hb.start, hb.cache, hb.table, hb.dictionary, hb.interleaved, fun _ => h,
    hb.fresh.withChecksum sum, hb.ready.withChecksum sum⟩

/-- What the decoder can take: the chunk and the addresses in it. -/
structure Takes (D : DecoderState) (chunk : List UInt8) : Prop where
  length : chunk.length ≤ kDefaultMaximumTargetFileSize
  addresses : D.dictionary.length + chunk.length ≤ VarintBE.kMaxVal .int32
  limits : D.targetWindowWouldExceedSizeLimits chunk.length = false

/-- The engine makes a window of a chunk, and the decoder takes it. -/
theorem Between.encode (hb : D.Between w) (hd : hashed.Dictionary D.dictionary)
    (hne : chunk ≠ []) (ht : D.Takes chunk)
    (hsum : w.addChecksum = true → w.checksum = Adler32.computeAdler32 chunk)
    (hsum' : w.checksum ≤ 0xFFFFFFFF) (lookForTargetMatches : Bool) :
    ∃ window, (⟨D.dictionary, some hashed⟩ : DiffEngine).encode chunk lookForTargetMatches
        (.inr w : AnyCodeTableWriter) = (window, .inr w) ∧
      ∀ rest, ∃ reader cache,
        D.decodeWindow (window ++ rest) = (.success, D.afterWindow reader cache chunk, rest) ∧
        (D.afterWindow reader cache chunk).Between w := by
  have hlen := ht.length
  unfold kDefaultMaximumTargetFileSize at hlen
  obtain ⟨coder, ⟨is, rfl, hworth, hexec⟩, heq⟩ := DiffEngine.scripted_encode hd hne (by omega)
    lookForTargetMatches (.inr w : AnyCodeTableWriter)
  rw [List.take_length] at hexec
  have hnil : is ≠ [] := by
    rintro rfl
    exact hne (Option.some.inj hexec).symm
  have he : D.Encodes is chunk :=
    ⟨fun i hi => (hworth i hi).size_pos, hexec, hnil, ht.length, ht.addresses, ht.limits⟩
  rw [AnyCodeTableWriter.foldl_encode] at heq
  refine ⟨(is.foldl CodeTableWriter.encode w).output.1, ?_, fun rest => ?_⟩
  · obtain ⟨-, -, -, -, hreturn⟩ := hb.decodeWindow he hsum hsum' []
    rw [heq, AnyCodeTableWriter.output_inr, hreturn]
  · obtain ⟨reader, cache, hdecode, hbetween, -⟩ := hb.decodeWindow he hsum hsum' rest
    exact ⟨reader, cache, hdecode, hbetween⟩

/-! ## The loop over the windows -/

/-- The decoder `D'` has decoded `text` more than `D`; of that and of what `D` had not put out yet,
something was put out: `out'` after `out`. -/
structure Decoded (D : DecoderState) (out text : List UInt8) (D' : DecoderState)
    (out' : List UInt8) : Prop where
  printed : out' ++ D'.newOutputText = out ++ D.newOutputText ++ text
  position : D'.decodedTargetOutputPosition ≤ D'.decodedTarget.length
  total : D'.totalOfTargetWindowSizes = D.totalOfTargetWindowSizes + text.length
  started : D'.startDecodingWasCalled = D.startDecodingWasCalled
  dictionary : D'.dictionary = D.dictionary
  version : D'.vcdiffVersionCode = D.vcdiffVersionCode
  planned : D'.plannedTargetFileSize = D.plannedTargetFileSize
  maximumFile : D'.maximumTargetFileSize = D.maximumTargetFileSize
  maximumWindow : D'.maximumTargetWindowSize = D.maximumTargetWindowSize

theorem Decoded.refl (h : D.decodedTargetOutputPosition ≤ D.decodedTarget.length)
    (out : List UInt8) : D.Decoded out [] D out :=
  ⟨(List.append_nil _).symm, h, rfl, rfl, rfl, rfl, rfl, rfl, rfl⟩

theorem Decoded.trans {D' D'' : DecoderState} {out out' out'' text text' : List UInt8}
    (h : D.Decoded out text D' out') (h' : D'.Decoded out' text' D'' out'') :
    D.Decoded out (text ++ text') D'' out'' := by
  refine ⟨?_, h'.position, ?_, h'.started.trans h.started, h'.dictionary.trans h.dictionary,
    h'.version.trans h.version, h'.planned.trans h.planned, h'.maximumFile.trans h.maximumFile,
    h'.maximumWindow.trans h.maximumWindow⟩
  · rw [h'.printed, h.printed, List.append_assoc]
  · rw [h'.total, h.total, List.length_append, Nat.add_assoc]

/-- A window is decoded, and flushed if it is not needed as a source. -/
theorem windowLoop_window {window rest : List UInt8} {reader : CodeTableReader}
    {cache : AddressCache}
    (hw : D.decodeWindow (window ++ rest) = (.success, D.afterWindow reader cache chunk, rest))
    (hfound : D.deltaWindow.foundHeader = false)
    (hposition : D.decodedTargetOutputPosition ≤ D.decodedTarget.length)
    (hb : (D.afterWindow reader cache chunk).Between w)
    (hplanned : D.plannedTargetFileSize = none) (out : List UInt8) :
    ∃ D' out', windowLoop.run (D, window ++ rest, out) = windowLoop.run (D', rest, out') ∧
      D'.Between w ∧ D.Decoded out chunk D' out' := by
  have hlt := (decodeWindow_success hw).2.2 hfound
  have hne : window ++ rest ≠ [] := fun h => by
    rw [h] at hlt
    exact Nat.not_lt_zero _ hlt
  have htext : (D.afterWindow reader cache chunk).newOutputText = D.newOutputText ++ chunk := by
    show (D.decodedTarget ++ chunk).drop D.decodedTargetOutputPosition = _
    exact List.drop_append_of_le_length hposition
  have hreached : (D.afterWindow reader cache chunk).reachedPlannedTargetFileSize = false := by
    unfold reachedPlannedTargetFileSize
    rw [show (D.afterWindow reader cache chunk).plannedTargetFileSize = none from hplanned]
  have hbody : windowLoop.body (D, window ++ rest, out) =
      if !D.allowVcdTarget then
        .inl ((D.afterWindow reader cache chunk).flushDecodedTarget, rest,
          out ++ (D.afterWindow reader cache chunk).newOutputText)
      else .inl (D.afterWindow reader cache chunk, rest, out) := by
    unfold windowLoop
    simp only
    rw [if_neg hne, hw]
    simp only [hreached]
    rfl
  by_cases hallow : D.allowVcdTarget = true
  · rw [hallow] at hbody
    refine ⟨_, _, Loop.run_of_inl hbody, hb, ⟨?_, ?_, rfl, rfl, rfl, rfl, rfl, rfl, rfl⟩⟩
    · rw [htext, List.append_assoc]
    · show _ ≤ (D.decodedTarget ++ chunk).length
      rw [List.length_append]
      exact Nat.le_add_right_of_le hposition
  · rw [Bool.eq_false_of_not_eq_true hallow] at hbody
    refine ⟨_, _, Loop.run_of_inl hbody, ?_, ⟨?_, Nat.le_refl 0, rfl, rfl, rfl, rfl, rfl, rfl, rfl⟩⟩
    · exact ⟨hb.foundHeader, rfl, hb.cache, hb.table, hb.dictionary, hb.interleaved, hb.checksum,
        hb.fresh, hb.ready⟩
    · rw [htext]
      show _ ++ [] = _
      rw [List.append_nil, List.append_assoc]

/-! ## Chunk after chunk -/

/-- What the decoder can take of all chunks. -/
structure TakesAll (D : DecoderState) (chunks : List (List UInt8)) : Prop where
  length : ∀ chunk ∈ chunks, chunk.length ≤ kDefaultMaximumTargetFileSize
  addresses : ∀ chunk ∈ chunks, D.dictionary.length + chunk.length ≤ VarintBE.kMaxVal .int32
  planned : D.plannedTargetFileSize = none
  window : ∀ chunk ∈ chunks, chunk.length ≤ D.maximumTargetWindowSize
  file : D.totalOfTargetWindowSizes + chunks.flatten.length ≤ D.maximumTargetFileSize

theorem TakesAll.takes {chunks : List (List UInt8)} (h : D.TakesAll (chunk :: chunks)) :
    D.Takes chunk := by
  have hwindow := h.window chunk (List.mem_cons_self ..)
  have hfile := h.file
  rw [List.flatten_cons, List.length_append] at hfile
  refine ⟨h.length chunk (List.mem_cons_self ..), h.addresses chunk (List.mem_cons_self ..), ?_⟩
  unfold targetWindowWouldExceedSizeLimits subSize
  rw [h.planned, if_pos (by omega), decide_eq_false (by omega), decide_eq_false (by omega)]
  rfl

theorem TakesAll.next {chunks : List (List UInt8)} {D' : DecoderState} {out out' : List UInt8}
    (h : D.TakesAll (chunk :: chunks)) (hd : D.Decoded out chunk D' out') : D'.TakesAll chunks := by
  have hfile := h.file
  rw [List.flatten_cons, List.length_append] at hfile
  refine ⟨fun c hc => h.length c (List.mem_cons_of_mem _ hc), ?_, hd.planned.trans h.planned, ?_, ?_⟩
  · intro c hc
    rw [hd.dictionary]
    exact h.addresses c (List.mem_cons_of_mem _ hc)
  · intro c hc
    rw [hd.maximumWindow]
    exact h.window c (List.mem_cons_of_mem _ hc)
  · rw [hd.total, hd.maximumFile]
    omega

section Session

variable {f : FormatExtensionFlags} {lookForTargetMatches : Bool} {e : StreamingEncoder AnyCodeTableWriter}

/-- The encoder between two chunks, and the decoder that has decoded the windows before. -/
structure Meets (D : DecoderState) (e : StreamingEncoder AnyCodeTableWriter) (hashed : BlockHash)
    (w : CodeTableWriter) : Prop where
  between : D.Between w
  engine : e.engine = ⟨D.dictionary, some hashed⟩
  hashed : hashed.Dictionary D.dictionary
  coder : e.coder = .inr w
  allowed : e.encodeChunkAllowed = true
  extensions : e.formatExtensions &&& VCD_FORMAT_CHECKSUM ≠ 0 → D.allowExtensions = true
  plain : e.formatExtensions &&& VCD_FORMAT_CHECKSUM = 0 → w.addChecksum = false
  checksum : w.checksum ≤ 0xFFFFFFFF
  position : D.decodedTargetOutputPosition ≤ D.decodedTarget.length

/-- The coder when the checksum of the chunk was added, if there is to be one. -/
theorem Meets.addChecksum (h : D.Meets e hashed w) (chunk : List UInt8) :
    ∃ w', (if e.formatExtensions &&& VCD_FORMAT_CHECKSUM ≠ 0 then
          CodeTableWriterInterface.addChecksum e.coder (Adler32.computeAdler32 chunk)
        else e.coder) = .inr w' ∧ w.SameButChecksum w' ∧
      D.Between w' ∧ (w'.addChecksum = true → w'.checksum = Adler32.computeAdler32 chunk) ∧
      (e.formatExtensions &&& VCD_FORMAT_CHECKSUM = 0 → w'.addChecksum = false) ∧
      w'.checksum ≤ 0xFFFFFFFF := by
  by_cases hflag : e.formatExtensions &&& VCD_FORMAT_CHECKSUM = 0
  · refine ⟨w, ?_, ⟨_, _, rfl⟩, h.between, fun hw => ?_, h.plain, h.checksum⟩
    · rw [if_neg (not_not_intro hflag), h.coder]
    · rw [h.plain hflag] at hw
      cases hw
  · refine ⟨w.withChecksum (Adler32.computeAdler32 chunk), ?_, ⟨_, _, rfl⟩,
      h.between.withChecksum (h.extensions hflag) _, fun _ => rfl, fun h0 => absurd h0 hflag,
      Adler32.computeAdler32_le chunk⟩
    rw [if_pos hflag, h.coder]
    rfl

/-- Encoder and decoder meet again after the next chunk. -/
theorem Meets.encodeChunk (h : D.Meets e hashed w) (hplanned : D.plannedTargetFileSize = none)
    (ht : D.Takes chunk) :
    ∃ window w', e.encodeChunk chunk = (true, window, { e with coder := .inr w' }) ∧
      w.SameButChecksum w' ∧
      ∀ rest out, ∃ D' out', windowLoop.run (D, window ++ rest, out) =
          windowLoop.run (D', rest, out') ∧
        D.Decoded out chunk D' out' ∧ D'.Meets { e with coder := .inr w' } hashed w' := by
  obtain ⟨w', hcoder, hsame, hb, hsum, hplain, hmax⟩ := h.addChecksum chunk
  have hverify : CodeTableWriterInterface.verifyChunk e.coder chunk = true := by
    rw [h.coder]
    rfl
  have hencode : e.encodeChunk chunk =
      (true, (e.engine.encode chunk e.lookForTargetMatches (.inr w' : AnyCodeTableWriter)).1,
        { e with coder := (e.engine.encode chunk e.lookForTargetMatches
          (.inr w' : AnyCodeTableWriter)).2 }) := by
    unfold StreamingEncoder.encodeChunk
    rw [h.allowed, hverify, hcoder]
    rfl
  have hmeets : ∀ D' : DecoderState, D'.Between w' → D'.dictionary = D.dictionary →
      D'.vcdiffVersionCode = D.vcdiffVersionCode →
      D'.decodedTargetOutputPosition ≤ D'.decodedTarget.length →
      D'.Meets { e with coder := .inr w' } hashed w' := by
    intro D' hb' hdict hversion hpos
    refine ⟨hb', hdict ▸ h.engine, hdict ▸ h.hashed, rfl, h.allowed, fun hflag => ?_, hplain,
      hmax, hpos⟩
    unfold allowExtensions
    rw [hversion]
    exact h.extensions hflag
  by_cases hne : chunk = []
  · subst hne
    have hnothing : e.engine.encode [] e.lookForTargetMatches (.inr w' : AnyCodeTableWriter) =
        ([], .inr w') := by
      rw [h.engine]
      rfl
    rw [hnothing] at hencode
    refine ⟨_, w', hencode, hsame, fun rest out => ⟨D, out, rfl, .refl h.position out, ?_⟩⟩
    exact hmeets D hb rfl rfl h.position
  · obtain ⟨window, hwindow, hdecode⟩ :=
      hb.encode h.hashed hne ht hsum hmax e.lookForTargetMatches
    rw [← h.engine] at hwindow
    rw [hwindow] at hencode
    refine ⟨_, w', hencode, hsame, fun rest out => ?_⟩
    obtain ⟨reader, cache, hstep, hb'⟩ := hdecode rest
    obtain ⟨D', out', hrun, hb'', hd⟩ :=
      windowLoop_window hstep hb.foundHeader h.position hb' hplanned out
    exact ⟨D', out', hrun, hd, hmeets D' hb'' hd.dictionary hd.version hd.position⟩

/-- The windows of all chunks are decoded to the chunks. -/
theorem Meets.encodeChunks {chunks : List (List UInt8)} (h : D.Meets e hashed w)
    (ht : D.TakesAll chunks) :
    ∃ windows w', e.encodeChunks chunks = (true, windows, { e with coder := .inr w' }) ∧
      w.SameButChecksum w' ∧
      ∀ rest out, ∃ D' out', windowLoop.run (D, windows ++ rest, out) =
          windowLoop.run (D', rest, out') ∧
        D.Decoded out chunks.flatten D' out' ∧
        D'.Meets { e with coder := .inr w' } hashed w' := by
  induction chunks generalizing D e w with
  | nil =>
    have he : { e with coder := .inr w } = e := by
      rw [← h.coder]
    refine ⟨[], w, by rw [he]; rfl, ⟨_, _, rfl⟩, fun rest out => ?_⟩
    exact ⟨D, out, rfl, .refl h.position out, he ▸ h⟩
  | cons chunk chunks ih =>
    obtain ⟨window, w₁, hencode, hsame₁, hstep⟩ := h.encodeChunk ht.planned ht.takes
    -- what the encoder does next does not depend on the decoder
    obtain ⟨D₀, _, -, hd₀, hmeets₀⟩ := hstep [] []
    obtain ⟨windows, w₂, hencodes, hsame₂, -⟩ := ih hmeets₀ (ht.next hd₀)
    refine ⟨window ++ windows, w₂, ?_, hsame₁.trans hsame₂, fun rest out => ?_⟩
    · rw [StreamingEncoder.encodeChunks, hencode]
      simp only [hencodes]
      rfl
    · obtain ⟨D₁, out₁, hrun₁, hd₁, hmeets₁⟩ := hstep (windows ++ rest) out
      obtain ⟨windows', w₂', hencodes', -, hrest⟩ := ih hmeets₁ (ht.next hd₁)
      obtain ⟨-, heq⟩ := Prod.mk.inj (hencodes.symm.trans hencodes')
      obtain ⟨rfl, hcoder⟩ := Prod.mk.inj heq
      obtain rfl := Sum.inr.inj (congrArg StreamingEncoder.coder hcoder)
      obtain ⟨D₂, out₂, hrun₂, hd₂, hmeets₂⟩ := hrest rest out₁
      refine ⟨D₂, out₂, ?_, ?_, hmeets₂⟩
      · rw [List.append_assoc, hrun₁, hrun₂]
      · rw [List.flatten_cons]
        exact hd₁.trans hd₂

end Session

end DecoderState

/-! ## Files -/

/-- An encoder before `StartEncoding`, which makes its coder `w`. -/
structure StreamingEncoder.Idle (e : StreamingEncoder AnyCodeTableWriter) (hashed : BlockHash)
    (w : CodeTableWriter) : Prop where
  engine : e.engine.hashedDictionary = some hashed
  hashed : hashed.Dictionary e.engine.dictionary
  coder : ∃ w₀, e.coder = .inr w₀ ∧ w₀.init e.engine.dictionary.length = (true, w)
  fresh : w.Fresh
  ready : w.Ready
  dictionary : w.dictionarySize = e.engine.dictionary.length
  interleaved : w.interleaved = true → e.formatExtensions ≠ VCD_STANDARD_FORMAT
  plain : e.formatExtensions &&& VCD_FORMAT_CHECKSUM = 0 → w.addChecksum = false
  checksum : w.checksum ≤ 0xFFFFFFFF

/-- A decoder before `StartDecoding`, with the default code table. -/
structure StreamingDecoder.Idle (S : StreamingDecoder) : Prop where
  start : S.decoder.startDecodingWasCalled = false
  table : S.decoder.deltaWindow.reader.codeTableData = .kDefaultCodeTableData

section File

variable {e : StreamingEncoder AnyCodeTableWriter} {hashed : BlockHash} {w : CodeTableWriter}
  {S : StreamingDecoder} {chunks : List (List UInt8)}

/-- `StartEncoding` of an encoder that is idle. -/
theorem StreamingEncoder.Idle.startEncoding (he : e.Idle hashed w) :
    e.startEncoding = (true, CodeTableWriter.writeHeader e.formatExtensions,
      { e with coder := .inr w, encodeChunkAllowed := true }) := by
  obtain ⟨w₀, hw₀, hinit⟩ := he.coder
  unfold StreamingEncoder.startEncoding
  have hinit' : CodeTableWriterInterface.init e.coder e.engine.dictionary.length =
      (true, .inr w) := by
    rw [hw₀]
    show (w₀.init _).map id Sum.inr = _
    rw [hinit]
    rfl
  rw [hinit']
  rfl

end File

end OpenVcdiff
