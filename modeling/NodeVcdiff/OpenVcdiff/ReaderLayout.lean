import NodeVcdiff.OpenVcdiff.VcDecoder
import NodeVcdiff.OpenVcdiff.WriterLayout

/-!
# What the reader reads

From sections that are a list of valid opcodes the decoder executes the instructions one by one.
-/

namespace OpenVcdiff

open Incremental (Parsed Parser)
open InstructionMap (Entry entry1 entry2 Single)
open SelfCopy (Instruction)

/-! ## The next instruction -/

namespace CodeTableReader

variable {r : CodeTableReader} {t : CodeTableData} {x y : Coded} {op : UInt8}
  {data rest : List UInt8}

theorem toByte_ne_zero {inst : InstructionType} (h : inst ≠ .noop) : inst.toByte ≠ 0 := by
  cases inst with
  | noop => exact absurd rfl h
  | add | run | copy => decide

theorem inst_of_fits {e : Entry} (h : x.Fits e) : e.inst = x.piece.inst.toByte := by
  rcases h with ⟨his, -⟩ | ⟨his, -⟩
  · exact his.1
  · exact his.1

/-- The instruction of an opcode that stands for one. -/
theorem nextEntry_one (data : List UInt8) (h : (Group.one op x).Valid t)
    (hx : x.piece.inst ≠ .noop) :
    ∃ e, x.Fits e ∧ nextEntry t none (op :: data) = some (e, none, data) := by
  rcases h with ⟨h2, hfit⟩ | ⟨h1, hfit⟩
  · have h1 : t.inst1.at op ≠ 0 := fun h0 =>
      toByte_ne_zero hx ((inst_of_fits hfit).symm.trans h0)
    refine ⟨_, hfit, ?_⟩
    unfold nextEntry
    simp only [h2, ne_eq, not_true_eq_false, if_false, h1]
  · have h2 : t.inst2.at op ≠ 0 := fun h0 =>
      toByte_ne_zero hx ((inst_of_fits hfit).symm.trans h0)
    refine ⟨_, hfit, ?_⟩
    unfold nextEntry
    simp only [h1, if_true, ne_eq, h2, not_false_eq_true]
    unfold nextEntry
    rfl

/-- The first instruction of an opcode that stands for two. -/
theorem nextEntry_two (data : List UInt8) (h : (Group.two op x y).Valid t) :
    nextEntry t none (op :: data) = some (entry1 t op, some op, data) := by
  obtain ⟨h1, h2, -⟩ := h
  unfold nextEntry
  simp only [h1, if_false, ne_eq, h2, not_false_eq_true, if_true]

/-- The size is in the opcode or after it. -/
theorem getNextInstruction_of_fits {e : Entry} {pending : Option UInt8} (hfit : x.Fits e)
    (h0 : 0 < x.piece.size) (hmax : x.piece.size ≤ VarintBE.kMaxVal .int32)
    (hnext : nextEntry r.codeTableData r.pendingSecondInstruction data =
      some (e, pending, x.size ++ rest)) :
    r.getNextInstruction data =
      (.instruction x.piece.inst.toByte x.piece.size e.mode,
        { r with
          lastInstructionStart := some data
          lastPendingSecondInstruction := r.pendingSecondInstruction
          pendingSecondInstruction := pending }, rest) := by
  have hinst := inst_of_fits hfit
  unfold getNextInstruction
  simp only [hnext]
  rcases hfit with ⟨his, hsize⟩ | ⟨his, hsize⟩
  · have hne : ¬e.size = 0 := by
      intro h
      have hzero : 0 = x.piece.size := by
        have := his.2.1
        rwa [h] at this
      omega
    rw [if_neg hne, hinst, his.2.1, hsize, List.nil_append]
  · have hz : e.size = 0 := UInt8.toNat_inj.mp his.2.1
    have hint : toInt32 x.piece.size = x.piece.size :=
      toInt32_of_lt (Nat.lt_succ_of_le hmax)
    rw [if_pos hz, hsize, CodeTableWriter.sizeBytes, hint, VarintBE.reads_encode hmax]
    simp only [hinst]

end CodeTableReader

namespace DecoderState

variable (D : DecoderState)

/-- The decoder further on in its window. -/
def advance (sections : Sections) (reader : CodeTableReader) (cache : Option AddressCache)
    (target : List UInt8) : DecoderState :=
  { D with
    decodedTarget := target
    addrCache := cache
    deltaWindow := { D.deltaWindow with sections, reader } }

variable {D} {s : Sections} {c : AddressCache} {p : Piece} {i : Instruction UInt8}
  {out : List UInt8} {reader : CodeTableReader} {cache : Option AddressCache}

theorem Started.advance (h : D.Started) : (D.advance s reader cache (D.before ++ out)).Started := by
  show D.deltaWindow.targetWindowStartPos ≤ (D.before ++ out).length
  rw [List.length_append, h.length_before]
  exact Nat.le_add_right _ _

theorem Started.before_advance (h : D.Started) :
    (D.advance s reader cache (D.before ++ out)).before = D.before := by
  show (D.before ++ out).take D.deltaWindow.targetWindowStartPos = _
  rw [← h.length_before, List.take_left]

theorem Started.produced_advance (h : D.Started) :
    (D.advance s reader cache (D.before ++ out)).produced = out := by
  show (D.before ++ out).drop D.deltaWindow.targetWindowStartPos = _
  rw [← h.length_before, List.drop_left]

/-- The sections from which an instruction is executed. -/
theorem execute_piece {here : ℤ} {mode : ℕ} (hhere : D.hereAddress = here)
    (hp : (pieceOf c here i).1 = p) (hstart : D.Started) (hf : c.Fits)
    (hcache : D.addrCache = some c) (hmode : p.inst = .copy → mode = p.mode)
    (hs : D.deltaWindow.sections = (s.pushAddresses p.address).pushData p.data)
    (hmax : here = (D.deltaWindow.sourceSegment.length + D.produced.length : ℕ))
    (hle : here ≤ VarintBE.kMaxVal .int32)
    (hexec : i.exec D.deltaWindow.sourceSegment D.produced = some out) :
    D.execute p.inst.toByte p.size mode = (.success,
      D.advance s D.deltaWindow.reader (some (pieceOf c here i).2) (D.before ++ out)) := by
  subst hp
  cases i with
  | add data =>
    cases hexec
    simp only [pieceOf, Sections.pushAddresses_nil] at hs
    show D.decodeAdd data.length = _
    unfold decodeAdd
    simp only
    rw [hs, Sections.data_pushData, if_neg (by rw [List.length_append]; omega),
      List.take_left, List.drop_left, Sections.setData_pushData, append, append_eq, pieceOf,
      ← hcache]
    rfl
  | run size byte =>
    cases hexec
    simp only [pieceOf, Sections.pushAddresses_nil] at hs
    show D.decodeRun size = _
    unfold decodeRun
    rw [hs, Sections.data_pushData, List.singleton_append]
    simp only
    rw [Sections.setData_pushData, append, append_eq, pieceOf, ← hcache]
    rfl
  | copy address size =>
    have hlt : address < D.deltaWindow.sourceSegment.length + D.targetBytesDecoded := by
      by_contra hge
      rw [Instruction.exec, length_produced, if_neg hge] at hexec
      cases hexec
    rw [Instruction.exec, length_produced, if_pos hlt] at hexec
    cases hexec
    rw [length_produced] at hmax
    have hmode := hmode rfl
    simp only [pieceOf, Sections.pushData_nil] at hs hmode ⊢
    have haddress : (address : ℤ) < here := by omega
    have hread := AddressCache.reads_encodeAddress hf (Int.natCast_nonneg address) haddress hle
    show D.decodeCopy size mode = _
    unfold decodeCopy
    rw [hcache]
    simp only
    rw [hhere, hmode, decodeCopyAt, hs, Sections.addresses_pushAddresses, hread]
    simp only
    rw [afterCopy, hs, Sections.setAddresses_pushAddresses, Int.toNat_natCast,
      copied_eq hstart hlt]
    rfl

/-- One round of the loop executes the instruction in front. -/
theorem decodeInstruction_piece {x : Coded} {e : Entry} {pending : Option UInt8}
    {front : List UInt8} (hx : (pieceOf c D.hereAddress i).1 = x.piece) (hstart : D.Started)
    (hf : c.Fits) (hcache : D.addrCache = some c) (hfit : x.Fits e)
    (hs : D.deltaWindow.sections =
      ((s.pushAddresses x.piece.address).pushData x.piece.data).pushInstructions (front ++ x.size))
    (hnext : CodeTableReader.nextEntry D.deltaWindow.reader.codeTableData
      D.deltaWindow.reader.pendingSecondInstruction D.deltaWindow.sections.instructions =
      some (e, pending, x.size ++
        ((s.pushAddresses x.piece.address).pushData x.piece.data).instructions))
    (h0 : 0 < i.size) (hsize : x.piece.size = i.size)
    (hmax : D.deltaWindow.sourceSegment.length + D.deltaWindow.targetWindowLength ≤
      VarintBE.kMaxVal .int32)
    (hexec : i.exec D.deltaWindow.sourceSegment D.produced = some out)
    (hlen : out.length ≤ D.deltaWindow.targetWindowLength) :
    ∃ reader, reader.codeTableData = D.deltaWindow.reader.codeTableData ∧
      reader.pendingSecondInstruction = pending ∧
      D.decodeInstruction = (.success,
        D.advance s reader (some (pieceOf c D.hereAddress i).2) (D.before ++ out)) := by
  have hout := SelfCopy.Instruction.exec_eq_some hexec
  have htbd := length_produced (D := D)
  have hkMax : VarintBE.kMaxVal .int32 = 0x7FFFFFFF := rfl
  have hhere : D.hereAddress = (D.deltaWindow.sourceSegment.length + D.produced.length : ℕ) := by
    rw [htbd]
    exact toInt32_of_lt (by omega)
  have hle : D.hereAddress ≤ VarintBE.kMaxVal .int32 := by
    rw [hhere]
    exact Int.ofNat_le.mpr (by omega)
  have hread := CodeTableReader.getNextInstruction_of_fits hfit (by omega) (by omega) hnext
  have hmode : x.piece.inst = .copy → e.mode.toNat = x.piece.mode := by
    intro hc
    rcases hfit with ⟨his, -⟩ | ⟨his, -⟩
    · exact his.2.2 hc
    · exact his.2.2 hc
  refine ⟨{ D.deltaWindow.reader with
    lastInstructionStart := some D.deltaWindow.sections.instructions
    lastPendingSecondInstruction := D.deltaWindow.reader.pendingSecondInstruction
    pendingSecondInstruction := pending }, rfl, rfl, ?_⟩
  unfold decodeInstruction
  simp only [hread]
  rw [if_neg]
  · rw [execute_piece (D := D.afterNext _ _) (s := s) (c := c) (i := i) rfl hx hstart hf hcache hmode
      ?_ hhere hle hexec]
    · rfl
    · show D.deltaWindow.sections.setInstructions _ = _
      rw [hs, Sections.setInstructions_pushInstructions]
  · show ¬(x.piece.size > D.deltaWindow.targetWindowLength ∨
      x.piece.size + D.targetBytesDecoded > D.deltaWindow.targetWindowLength)
    omega

theorem size_pieceOf (c : AddressCache) (here : ℤ) (i : Instruction UInt8) :
    (pieceOf c here i).1.size = i.size := by cases i <;> rfl

/-- What the loop needs to decode the script `is` to `out`. -/
structure Decodes (D : DecoderState) (c : AddressCache) (is : List (Instruction UInt8))
    (out : List UInt8) : Prop where
  started : D.Started
  fits : c.Fits
  cache : D.addrCache = some c
  positive : ∀ i ∈ is, 0 < i.size
  max : D.deltaWindow.sourceSegment.length + D.deltaWindow.targetWindowLength ≤
    VarintBE.kMaxVal .int32
  exec : SelfCopy.exec D.deltaWindow.sourceSegment D.produced is = some out
  length : out.length = D.deltaWindow.targetWindowLength

theorem length_le_of_exec {source out out' : List UInt8} {is : List (Instruction UInt8)}
    (h : SelfCopy.exec source out is = some out') : out.length ≤ out'.length := by
  rw [SelfCopy.length_of_exec h]
  exact Nat.le_add_right _ _

/-- The loop goes on behind the instruction in front. -/
theorem run_decodeLoop_piece {is : List (Instruction UInt8)} {x : Coded} {e : Entry}
    {pending : Option UInt8} {front : List UInt8} (h : D.Decodes c (i :: is) out)
    (hx : (pieceOf c D.hereAddress i).1 = x.piece) (hfit : x.Fits e)
    (hs : D.deltaWindow.sections =
      ((s.pushAddresses x.piece.address).pushData x.piece.data).pushInstructions (front ++ x.size))
    (hnext : CodeTableReader.nextEntry D.deltaWindow.reader.codeTableData
      D.deltaWindow.reader.pendingSecondInstruction D.deltaWindow.sections.instructions =
      some (e, pending, x.size ++
        ((s.pushAddresses x.piece.address).pushData x.piece.data).instructions)) :
    ∃ D', D'.Decodes (pieceOf c D.hereAddress i).2 is out ∧
      (∃ reader cache mid, D' = D.advance s reader cache (D.before ++ mid) ∧
        mid.length = D.produced.length + i.size) ∧
      D'.deltaWindow.reader.codeTableData = D.deltaWindow.reader.codeTableData ∧
      D'.deltaWindow.reader.pendingSecondInstruction = pending ∧
      decodeLoop.run D = decodeLoop.run D' := by
  obtain ⟨h0, hpos⟩ := List.forall_mem_cons.mp h.positive
  have hexec := h.exec
  rw [SelfCopy.exec] at hexec
  obtain ⟨mid, hi, hrest⟩ := Option.bind_eq_some_iff.mp hexec
  have hmid := SelfCopy.Instruction.exec_eq_some hi
  have hle := length_le_of_exec hrest
  have hlen := h.length
  obtain ⟨reader, htable, hpending, hround⟩ := decodeInstruction_piece (D := D) hx h.started h.fits
    h.cache hfit hs hnext h0 (by rw [← hx, size_pieceOf]) h.max hi (by omega)
  refine ⟨D.advance s reader (some (pieceOf c D.hereAddress i).2) (D.before ++ mid),
    ⟨h.started.advance, ?_, rfl, hpos, h.max, ?_, hlen⟩, ⟨reader, _, mid, rfl, hmid⟩,
    htable, hpending, ?_⟩
  · rcases CodeTableWriter.cache_pieceOf c D.hereAddress i with hc | ⟨address, hc⟩
    · rw [hc]; exact h.fits
    · rw [hc]; exact h.fits
  · rw [h.started.produced_advance]
    exact hrest
  · apply Loop.run_of_inl
    have hlt : D.targetBytesDecoded < D.deltaWindow.targetWindowLength := by
      rw [← length_produced]
      omega
    show (if _ then _ else _) = _
    rw [if_pos hlt, hround]

theorem piecesOf_eq_nil {n : ℕ} {is : List (Instruction UInt8)} (h : piecesOf c n is = []) :
    is = [] := by
  cases is with
  | nil => rfl
  | cons i is => cases h

theorem piecesOf_eq_cons {n : ℕ} {is : List (Instruction UInt8)} {ps : List Piece}
    (h : piecesOf c n is = p :: ps) : ∃ i is', is = i :: is' ∧ (pieceOf c (toInt32 n) i).1 = p ∧
      piecesOf (pieceOf c (toInt32 n) i).2 (n + i.size) is' = ps := by
  cases is with
  | nil => cases h
  | cons i is =>
    obtain ⟨hp, hps⟩ := List.cons.inj h
    exact ⟨i, is, rfl, hp, hps⟩

/-- The loop of `DecodeBody` reads what the writer has written. -/
theorem run_decodeLoop {b : Bool} {gs : List Group} {is : List (Instruction UInt8)}
    (h : D.Decodes c is out) (hs : D.deltaWindow.sections = layout b gs)
    (hpending : D.deltaWindow.reader.pendingSecondInstruction = none)
    (hvalid : ∀ g ∈ gs, g.Valid D.deltaWindow.reader.codeTableData)
    (hpieces : gs.flatMap Group.pieces =
      piecesOf c (D.deltaWindow.sourceSegment.length + D.produced.length) is) :
    ∃ reader cache, reader.codeTableData = D.deltaWindow.reader.codeTableData ∧
      cache.init = c.init ∧
      decodeLoop.run D = (.success, D.advance (.empty b) reader (some cache) (D.before ++ out)) := by
  induction gs generalizing D c is with
  | nil =>
    obtain rfl := piecesOf_eq_nil hpieces.symm
    obtain rfl := Option.some.inj h.exec
    refine ⟨D.deltaWindow.reader, c, rfl, rfl, ?_⟩
    have hstop : ¬D.targetBytesDecoded < D.deltaWindow.targetWindowLength := by
      rw [← h.length, length_produced]
      exact Nat.lt_irrefl _
    rw [before_append_produced, ← h.cache, ← show D.deltaWindow.sections = .empty b from hs]
    apply Loop.run_of_inr
    exact if_neg hstop
  | cons g gs ih =>
    obtain ⟨hg, hgs⟩ := List.forall_mem_cons.mp hvalid
    have hhere : toInt32 (D.deltaWindow.sourceSegment.length + D.produced.length) =
        D.hereAddress := by rw [length_produced]; rfl
    cases g with
    | one op x =>
      obtain ⟨i, is, rfl, hx, hrest⟩ := piecesOf_eq_cons hpieces.symm
      rw [hhere] at hx hrest
      have hnoop : x.piece.inst ≠ .noop := hx ▸ (CodeTableWriter.mode_pieceOf h.fits _ i).2
      have hs' : D.deltaWindow.sections = (((layout b gs).pushAddresses x.piece.address).pushData
          x.piece.data).pushInstructions ([op] ++ x.size) := by
        rw [hs, Sections.pushInstructions_append]
        rfl
      obtain ⟨e, hfit, hnext⟩ := CodeTableReader.nextEntry_one (x.size ++
        (((layout b gs).pushAddresses x.piece.address).pushData x.piece.data).instructions) hg hnoop
      obtain ⟨D', hD', ⟨reader, cache, mid, rfl, hmid⟩, htable, hp, hrun⟩ :=
        run_decodeLoop_piece h hx hfit hs' (by
          rw [hs', hpending, Sections.instructions_pushInstructions, List.append_assoc]
          exact hnext)
      obtain ⟨reader', cache', ht', hi', hfinal⟩ := ih hD' rfl hp (htable ▸ hgs) (by
        rw [h.started.produced_advance, hmid, ← Nat.add_assoc]
        exact hrest.symm)
      refine ⟨reader', cache', ht'.trans htable, ?_, ?_⟩
      · rw [hi', CodeTableWriter.init_pieceOf]
      · rw [hrun, hfinal, h.started.before_advance]
        rfl
    | two op x y =>
      obtain ⟨i, is, rfl, hx, hrest⟩ := piecesOf_eq_cons hpieces.symm
      obtain ⟨i', is, rfl, hy, hrest⟩ := piecesOf_eq_cons hrest
      rw [hhere] at hx hy hrest
      have hs' : D.deltaWindow.sections = (((y.push (layout b gs)).pushAddresses
          x.piece.address).pushData x.piece.data).pushInstructions ([op] ++ x.size) := by
        rw [hs, Sections.pushInstructions_append]
        rfl
      have hnext := CodeTableReader.nextEntry_two (x.size ++
        (((y.push (layout b gs)).pushAddresses x.piece.address).pushData
          x.piece.data).instructions) hg
      obtain ⟨D', hD', ⟨reader, cache, mid, rfl, hmid⟩, htable, hp, hrun⟩ :=
        run_decodeLoop_piece h hx hg.2.2.1 hs' (by
          rw [hs', hpending, Sections.instructions_pushInstructions, List.append_assoc]
          exact hnext)
      -- the second instruction is pending
      have hhere' : toInt32 (D.deltaWindow.sourceSegment.length + D.produced.length + i.size) =
          (D.advance (y.push (layout b gs)) reader cache (D.before ++ mid)).hereAddress := by
        rw [hereAddress, ← length_produced, h.started.produced_advance, hmid, Nat.add_assoc]
        rfl
      rw [hhere'] at hy hrest
      have hs'' : (D.advance (y.push (layout b gs)) reader cache (D.before ++ mid)).deltaWindow.sections
          = (((layout b gs).pushAddresses y.piece.address).pushData y.piece.data).pushInstructions
            ([] ++ y.size) := rfl
      obtain ⟨D', hD'', ⟨reader', cache', mid', rfl, hmid'⟩, htable', hp', hrun'⟩ :=
        run_decodeLoop_piece hD' hy hg.2.2.2 hs'' (by
          rw [hp, htable, CodeTableReader.nextEntry]
          show some (_, none, (y.push (layout b gs)).instructions) = _
          rw [Coded.push, Sections.instructions_pushInstructions])
      obtain ⟨reader'', cache'', ht'', hi'', hfinal⟩ := ih hD'' rfl hp' (htable'.trans htable ▸ hgs) (by
        rw [hD'.started.produced_advance, hmid', h.started.produced_advance, hmid]
        rw [Nat.add_assoc, Nat.add_assoc] at hrest
        rw [Nat.add_assoc]
        exact hrest.symm)
      refine ⟨reader'', cache'', ht''.trans (htable'.trans htable), ?_, ?_⟩
      · rw [hi'', CodeTableWriter.init_pieceOf, CodeTableWriter.init_pieceOf]
      · rw [hrun, hrun', hfinal, hD'.started.before_advance, h.started.before_advance]
        rfl

end DecoderState

end OpenVcdiff
