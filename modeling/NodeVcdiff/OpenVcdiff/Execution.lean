import NodeVcdiff.OpenVcdiff.DeltaWindow

/-!
# What an instruction does to the target

Executing an instruction of a window is executing an instruction of a delta script: the bytes of
the window are built out of its source segment and the bytes before.
-/

namespace OpenVcdiff

open Incremental (Parsed Parser)
open SelfCopy (Instruction copySymbols)

theorem toInt32_le (n : ℕ) : toInt32 n ≤ n := by
  unfold toInt32
  rw [Int.bmod_def]
  split <;> omega

theorem toInt32_of_lt {n : ℕ} (h : n < 0x80000000) : toInt32 n = n := by
  unfold toInt32
  rw [Int.bmod_def]
  omega

namespace DecoderState

variable (D : DecoderState)

/-- The bytes of the current window that were decoded. -/
def produced : List UInt8 := D.decodedTarget.drop D.deltaWindow.targetWindowStartPos

/-- The bytes before the current window. -/
def before : List UInt8 := D.decodedTarget.take D.deltaWindow.targetWindowStartPos

/-- The window starts in the target. -/
def Started : Prop := D.deltaWindow.targetWindowStartPos ≤ D.decodedTarget.length

variable {D}

theorem before_append_produced : D.before ++ D.produced = D.decodedTarget :=
  List.take_append_drop _ _

theorem length_produced : D.produced.length = D.targetBytesDecoded := List.length_drop

theorem Started.length_before (h : D.Started) :
    D.before.length = D.deltaWindow.targetWindowStartPos := by
  rw [before, List.length_take]
  exact Nat.min_eq_left h

/-! ## Copies -/

/-- The loop of `DecodeCopy` copies one byte after the other. -/
theorem run_copyLoop (source : List UInt8) (start : ℕ) (s : CopyState) :
    ∀ before out, s.decodedTarget = before ++ out → before.length = start →
      s.targetBytesDecoded = out.length → (copyLoop start).run s =
        before ++ copySymbols source out (source.length + s.address) s.size := by
  apply Loop.run_rel (L := copyLoop start) (R := fun s r => ∀ before out,
    s.decodedTarget = before ++ out → before.length = start → s.targetBytesDecoded = out.length →
      r = before ++ copySymbols source out (source.length + s.address) s.size)
  · intro s t r hs ih before out htarget hstart hlen
    have hbehind := s.behind
    simp only [copyLoop] at hs
    split at hs
    · next hgt =>
      obtain rfl := Sum.inl.inj hs
      -- all that is there behind the address is copied
      have hblock : (s.decodedTarget.drop (start + s.address)).take
          (s.targetBytesDecoded - s.address) = out.drop s.address := by
        rw [htarget, ← hstart, List.drop_length_add_append, List.take_of_length_le]
        rw [List.length_drop, hlen]
      have := ih before (out ++ out.drop s.address)
        (by show s.decodedTarget ++ _ = _; rw [hblock, htarget, List.append_assoc]) hstart
        (by show _ + (_ - _) = _; rw [List.length_append, List.length_drop, hlen])
      rw [this]
      have hsize : s.size = (s.targetBytesDecoded - s.address) +
          (s.size - (s.targetBytesDecoded - s.address)) := by omega
      have hcopy : copySymbols source out (source.length + s.address)
          (s.targetBytesDecoded - s.address) = out ++ out.drop s.address := by
        rw [SelfCopy.copySymbols_block (by omega), List.drop_length_add_append,
          List.take_of_length_le (by rw [List.length_drop, hlen])]
      conv_rhs => rw [hsize, SelfCopy.copySymbols_add _ (by omega), hcopy]
      rw [Nat.add_assoc]
    · cases hs
  · intro s r hs before out htarget hstart hlen
    have hbehind := s.behind
    simp only [copyLoop] at hs
    split at hs
    · cases hs
    · next hle =>
      obtain rfl := Sum.inr.inj hs
      rw [SelfCopy.copySymbols_block (by omega), List.drop_length_add_append, htarget, ← hstart,
        List.drop_length_add_append, List.append_assoc]

/-- `DecodeCopy` copies one byte after the other, from the source segment followed by the window. -/
theorem copied_eq (hs : D.Started) {address : ℕ}
    (ha : address < D.deltaWindow.sourceSegment.length + D.targetBytesDecoded) (size : ℕ) :
    D.copied address size =
      D.before ++ copySymbols D.deltaWindow.sourceSegment D.produced address size := by
  have hlen := length_produced (D := D)
  unfold copied
  simp only
  by_cases hsource : address + size ≤ D.deltaWindow.sourceSegment.length
  · rw [if_pos hsource, SelfCopy.copySymbols_block (by omega),
      List.drop_append_of_le_length (by omega), List.take_append_of_le_length
        (by rw [List.length_drop]; omega), ← List.append_assoc, before_append_produced]
  · rw [if_neg hsource]
    -- what comes from the source segment is copied as a block
    set partialSize := D.deltaWindow.sourceSegment.length - address with hpartial
    have hsize : size = partialSize + (size - partialSize) := by omega
    have hcopy : copySymbols D.deltaWindow.sourceSegment D.produced address partialSize =
        D.produced ++ (D.deltaWindow.sourceSegment.drop address).take partialSize := by
      rw [SelfCopy.copySymbols_block (by omega)]
      by_cases hle : address ≤ D.deltaWindow.sourceSegment.length
      · rw [List.drop_append_of_le_length hle,
          List.take_append_of_le_length (by rw [List.length_drop])]
      · rw [show partialSize = 0 by omega]
        rfl
    rw [dif_pos (by omega), run_copyLoop D.deltaWindow.sourceSegment _ _ D.before
      (D.produced ++ (D.deltaWindow.sourceSegment.drop address).take partialSize)
      (by rw [← List.append_assoc, before_append_produced]) hs.length_before
      (by
        show D.targetBytesDecoded + partialSize = _
        rw [List.length_append, List.length_take, List.length_drop, hlen]
        omega)]
    conv_rhs => rw [hsize, SelfCopy.copySymbols_add _ (by omega), hcopy]
    show _ ++ copySymbols _ _ (_ + (address + partialSize - _)) (size - partialSize) = _
    congr 2
    omega

/-! ## Instructions -/

theorem Sections.instructions_setData {s : Sections} {rest : List UInt8} (h : rest <:+ s.data) :
    (s.setData rest).isInterleaved = s.isInterleaved ∧
      (s.setData rest).instructions <:+ s.instructions := by
  cases s with
  | separate i d a => exact ⟨rfl, List.suffix_refl _⟩
  | interleaved s => exact ⟨rfl, h⟩

theorem Sections.instructions_setAddresses {s : Sections} {rest : List UInt8}
    (h : rest <:+ s.addresses) : (s.setAddresses rest).isInterleaved = s.isInterleaved ∧
      (s.setAddresses rest).instructions <:+ s.instructions := by
  cases s with
  | separate i d a => exact ⟨rfl, List.suffix_refl _⟩
  | interleaved s => exact ⟨rfl, h⟩

/-- What an instruction changes when it is executed: the address cache, the positions in the
sections and the target, as the script instruction it stands for does. -/
structure Executed (D D' : DecoderState) (size : ℕ) : Prop where
  frame : ∃ target cache, D' =
    { D with decodedTarget := target, addrCache := cache }.withSections D'.deltaWindow.sections
  kind : D'.deltaWindow.sections.isInterleaved = D.deltaWindow.sections.isInterleaved
  instructions : D'.deltaWindow.sections.instructions <:+ D.deltaWindow.sections.instructions
  script : D.Started → ∃ i : Instruction UInt8, i.size = size ∧ ∃ out,
    i.exec D.deltaWindow.sourceSegment D.produced = some out ∧ D'.decodedTarget = D.before ++ out

theorem append_eq (bytes : List UInt8) :
    D.decodedTarget ++ bytes = D.before ++ (D.produced ++ bytes) := by
  rw [← List.append_assoc, before_append_produced]

theorem decodeAdd_cases (D : DecoderState) (size : ℕ) :
    (∃ D', D.decodeAdd size = (.success, D') ∧ Executed D D' size) ∨
      D.decodeAdd size = (.endOfData, D) := by
  unfold decodeAdd
  simp only
  by_cases hsize : size > D.deltaWindow.sections.data.length
  · exact .inr (if_pos hsize)
  · obtain ⟨hk, hi⟩ := Sections.instructions_setData (s := D.deltaWindow.sections)
      (List.drop_suffix size D.deltaWindow.sections.data)
    refine .inl ⟨_, if_neg hsize, ⟨_, D.addrCache, rfl⟩, hk, hi, fun _ => ?_⟩
    refine ⟨.add (D.deltaWindow.sections.data.take size), ?_, _, rfl, append_eq _⟩
    show (List.take _ _).length = _
    rw [List.length_take]
    omega

theorem decodeRun_cases (D : DecoderState) (size : ℕ) :
    (∃ D', D.decodeRun size = (.success, D') ∧ Executed D D' size) ∨
      D.decodeRun size = (.endOfData, D) := by
  unfold decodeRun
  split
  · exact .inr rfl
  · next byte rest heq =>
    have hsuf : rest <:+ D.deltaWindow.sections.data := heq ▸ List.suffix_cons byte rest
    obtain ⟨hk, hi⟩ := Sections.instructions_setData hsuf
    exact .inl ⟨_, rfl, ⟨_, D.addrCache, rfl⟩, hk, hi, fun _ =>
      ⟨.run size byte, rfl, _, rfl, append_eq _⟩⟩

theorem decodeCopyAt_cases (D : DecoderState) (cache : AddressCache) {here : ℤ}
    (hhere : here ≤ (D.deltaWindow.sourceSegment.length + D.targetBytesDecoded : ℕ))
    (size mode : ℕ) :
    (∃ D', D.decodeCopyAt cache here size mode = (.success, D') ∧ Executed D D' size) ∨
      D.decodeCopyAt cache here size mode = (.endOfData, D) ∨
      D.decodeCopyAt cache here size mode = (.error, D) := by
  unfold decodeCopyAt
  cases hd : cache.decodeAddress here mode D.deltaWindow.sections.addresses with
  | error => exact .inr (.inr rfl)
  | endOfData => exact .inr (.inl rfl)
  | success decoded rest =>
    obtain ⟨address, cache'⟩ := decoded
    obtain ⟨hk, hi⟩ := Sections.instructions_setAddresses
      (AddressCache.leaves_decodeAddress _ _ _ _ _ hd)
    obtain ⟨h0, hlt, -, -⟩ := AddressCache.decodeAddress_success hd
    refine .inl ⟨D.afterCopy address cache' size rest, rfl, ?_, hk, hi, fun hs => ?_⟩
    · exact ⟨D.copied address.toNat size, some cache', rfl⟩
    · have ha : address.toNat < D.deltaWindow.sourceSegment.length + D.targetBytesDecoded := by
        omega
      refine ⟨.copy address.toNat size, rfl, _, ?_, copied_eq hs ha size⟩
      rw [Instruction.exec, if_pos (by rw [length_produced]; exact ha)]

theorem decodeCopy_cases (D : DecoderState) (size mode : ℕ) :
    (∃ D', D.decodeCopy size mode = (.success, D') ∧ Executed D D' size) ∨
      D.decodeCopy size mode = (.endOfData, D) ∨ D.decodeCopy size mode = (.error, D) := by
  have hhere : D.hereAddress ≤
      (D.deltaWindow.sourceSegment.length + D.targetBytesDecoded : ℕ) := toInt32_le _
  unfold decodeCopy
  cases D.addrCache with
  | none => exact .inr (.inr rfl)
  | some cache => exact decodeCopyAt_cases D cache hhere size mode

/-- An instruction that is not executed changes nothing. -/
theorem execute_cases (D : DecoderState) (inst : UInt8) (size mode : ℕ) :
    (∃ D', D.execute inst size mode = (.success, D') ∧ Executed D D' size) ∨
      D.execute inst size mode = (.endOfData, D) ∨ D.execute inst size mode = (.error, D) := by
  unfold execute
  split
  · exact (decodeAdd_cases D size).imp_right .inl
  · exact (decodeRun_cases D size).imp_right .inl
  · exact decodeCopy_cases D size mode
  · exact .inr (.inr rfl)

end DecoderState

end OpenVcdiff
