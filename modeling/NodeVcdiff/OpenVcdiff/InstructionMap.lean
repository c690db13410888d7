import NodeVcdiff.OpenVcdiff.CodeTable

/-!
# `instruction_map.cc`

From an instruction to the opcode for it. A slot that was filled is not filled again, so that
the lowest opcode wins.
-/

namespace OpenVcdiff

/-! ## Slots that are filled once -/

section Slots

variable {κ ν : Type*} [DecidableEq κ]

/-- Fill the slot of `key` unless there is something in it. -/
def fillSlot (slots : κ → Option ν) (key : κ) (v : ν) : κ → Option ν := fun k =>
  match slots k with
  | some w => some w
  | none => if k = key then some v else none

/-- Fill slots in turn. An item without a key is skipped. -/
def fillSlots (slots : κ → Option ν) : List (Option κ × ν) → κ → Option ν
  | [] => slots
  | (none, _) :: items => fillSlots slots items
  | (some key, v) :: items => fillSlots (fillSlot slots key v) items

variable {slots : κ → Option ν} {k : κ} {v : ν} {items : List (Option κ × ν)}

theorem fillSlot_of_some (h : slots k = some v) (key : κ) (w : ν) :
    fillSlot slots key w k = some v := by
  rw [fillSlot, h]

theorem fillSlot_self (h : slots k = none) (v : ν) : fillSlot slots k v k = some v := by
  simp only [fillSlot, h, if_true]

theorem fillSlot_of_ne (h : slots k = none) {key : κ} (hne : k ≠ key) (v : ν) :
    fillSlot slots key v k = none := by
  simp only [fillSlot, h, if_neg hne]

theorem fillSlots_of_some (h : slots k = some v) : fillSlots slots items k = some v := by
  induction items generalizing slots with
  | nil => exact h
  | cons item items ih =>
    obtain ⟨_ | key, w⟩ := item
    · exact ih h
    · exact ih (fillSlot_of_some h key w)

/-- What an empty slot is filled with is the first item for it. -/
theorem fillSlots_eq_some (h0 : slots k = none) (h : fillSlots slots items k = some v) :
    ∃ before after, items = before ++ (some k, v) :: after ∧ ∀ w, (some k, w) ∉ before := by
  induction items generalizing slots with
  | nil => rw [fillSlots, h0] at h; cases h
  | cons item items ih =>
    obtain ⟨_ | key, w⟩ := item
    · obtain ⟨before, after, rfl, hbefore⟩ := ih h0 h
      refine ⟨_ :: before, after, rfl, fun u hu => ?_⟩
      rcases List.mem_cons.mp hu with hu | hu
      · cases hu
      · exact hbefore u hu
    · by_cases hkey : key = k
      · subst hkey
        rw [fillSlots, fillSlots_of_some (fillSlot_self h0 w)] at h
        cases h
        exact ⟨[], items, rfl, by simp⟩
      · obtain ⟨before, after, rfl, hbefore⟩ := ih (fillSlot_of_ne h0 (Ne.symm hkey) w) h
        refine ⟨_ :: before, after, rfl, fun u hu => ?_⟩
        rcases List.mem_cons.mp hu with hu | hu
        · exact hkey (Option.some.inj (Prod.mk.inj hu).1).symm
        · exact hbefore u hu

/-- A slot that there is an item for is filled. -/
theorem fillSlots_ne_none (h : (some k, v) ∈ items) : fillSlots slots items k ≠ none := by
  induction items generalizing slots with
  | nil => cases h
  | cons item items ih =>
    rcases List.mem_cons.mp h with rfl | htail
    · obtain ⟨u, hu⟩ : ∃ u, fillSlot slots k v k = some u := by
        cases h : slots k with
        | none => exact ⟨v, fillSlot_self h v⟩
        | some w => exact ⟨w, fillSlot_of_some h k v⟩
      rw [fillSlots, fillSlots_of_some hu]
      exact Option.some_ne_none u
    · obtain ⟨_ | key, w⟩ := item
      · exact ih htail
      · exact ih htail

end Slots

/-! ## The maps -/

/-- `VCDiffInstructionMap`. `kNoOpcode` is `none`; the slots are indexed by the sum of instruction
type and mode and by the size, those of the second map also by the opcode of the first
instruction. -/
structure InstructionMap where
  maxSize1 : ℕ
  maxSize2 : ℕ
  firstOpcodes : ℕ × ℕ → Option UInt8
  secondOpcodes : UInt8 × ℕ × ℕ → Option UInt8

namespace InstructionMap

/-- `FindMaxSize`. -/
def findMaxSize (sizes : OpcodeArray) : ℕ := sizes.1.foldl (fun m size => max m size.toNat) 0

/-- `inst_mode` in the two `Lookup` functions. -/
def instMode (inst : InstructionType) (mode : ℕ) : ℕ :=
  if inst = .copy then inst.toByte.toNat + mode else inst.toByte.toNat

/-- `FirstInstructionMap::Lookup`. -/
def lookupFirstOpcode (m : InstructionMap) (inst : InstructionType) (size mode : ℕ) :
    Option UInt8 :=
  if size > m.maxSize1 then none else m.firstOpcodes (instMode inst mode, size)

/-- `SecondInstructionMap::Lookup`. -/
def lookupSecondOpcode (m : InstructionMap) (firstOpcode : UInt8) (inst : InstructionType)
    (size mode : ℕ) : Option UInt8 :=
  if size > m.maxSize2 then none else m.secondOpcodes (firstOpcode, instMode inst mode, size)

variable (t : CodeTableData)

/-- The slot that `FirstInstructionMap::Add` fills for an opcode: that of its only instruction. -/
def singleSlot (opcode : UInt8) : Option (ℕ × ℕ) :=
  if t.inst2.at opcode = 0 then
    some ((t.inst1.at opcode).toNat + (t.mode1.at opcode).toNat, (t.size1.at opcode).toNat)
  else if t.inst1.at opcode = 0 then
    some ((t.inst2.at opcode).toNat + (t.mode2.at opcode).toNat, (t.size2.at opcode).toNat)
  else none

/-- The first pass of the constructor. -/
def firstPass : ℕ × ℕ → Option UInt8 :=
  fillSlots (fun _ => none) (CodeTableData.opcodes.map fun opcode => (singleSlot t opcode, opcode))

/-- The opcode that `LookupFirstOpcode` finds for the first of two instructions. -/
def firstOfDouble (opcode : UInt8) : Option UInt8 :=
  if (t.size1.at opcode).toNat > findMaxSize t.size1 then none
  else firstPass t
    (if t.inst1.at opcode = 3 then (t.inst1.at opcode).toNat + (t.mode1.at opcode).toNat
      else (t.inst1.at opcode).toNat, (t.size1.at opcode).toNat)

/-- The slot that `SecondInstructionMap::Add` fills for an opcode with two instructions. -/
def doubleSlot (opcode : UInt8) : Option (UInt8 × ℕ × ℕ) :=
  if t.inst1.at opcode ≠ 0 ∧ t.inst2.at opcode ≠ 0 then
    (firstOfDouble t opcode).map fun single => (single,
      (t.inst2.at opcode).toNat + (t.mode2.at opcode).toNat, (t.size2.at opcode).toNat)
  else none

/-- The second pass of the constructor. -/
def secondPass : UInt8 × ℕ × ℕ → Option UInt8 :=
  fillSlots (fun _ => none) (CodeTableData.opcodes.map fun opcode => (doubleSlot t opcode, opcode))

/-- The constructor. -/
def new : InstructionMap :=
  ⟨findMaxSize t.size1, findMaxSize t.size2, firstPass t, secondPass t⟩

/-! ## What an opcode stands for -/

/-- One instruction of an opcode. -/
structure Entry where
  inst : UInt8
  size : UInt8
  mode : UInt8
  deriving DecidableEq

/-- The first instruction of an opcode. -/
def entry1 (opcode : UInt8) : Entry := ⟨t.inst1.at opcode, t.size1.at opcode, t.mode1.at opcode⟩

/-- The second instruction of an opcode. -/
def entry2 (opcode : UInt8) : Entry := ⟨t.inst2.at opcode, t.size2.at opcode, t.mode2.at opcode⟩

/-- An entry is the instruction `inst` with a size and a mode. -/
def Entry.Is (e : Entry) (inst : InstructionType) (size mode : ℕ) : Prop :=
  e.inst = inst.toByte ∧ e.size.toNat = size ∧ (inst = .copy → e.mode.toNat = mode)

/-- The opcode stands for one instruction. -/
def Single (opcode : UInt8) (inst : InstructionType) (size mode : ℕ) : Prop :=
  (t.inst2.at opcode = 0 ∧ (entry1 t opcode).Is inst size mode) ∨
    (t.inst1.at opcode = 0 ∧ (entry2 t opcode).Is inst size mode)

variable {t} {maxMode : ℕ}

/-- Instruction type and mode are told apart by their sum. -/
theorem entry_is_of_sum {e : Entry} {inst : InstructionType} {size mode : ℕ}
    (hv : CodeTableData.validateOpcode e.inst e.size e.mode maxMode = true)
    (hsum : e.inst.toNat + e.mode.toNat = instMode inst mode) (hsize : e.size.toNat = size) :
    e.Is inst size mode := by
  have hle := CodeTableData.inst_le hv
  have hbyte : e.inst ≠ 3 → e.mode.toNat = 0 := fun h => by
    rw [CodeTableData.mode_eq_zero hv h]
    rfl
  have hthree : e.inst = 3 ↔ e.inst.toNat = 3 := UInt8.toNat_inj.symm
  have hinst : e.inst.toNat = inst.toByte.toNat := by
    unfold instMode at hsum
    by_cases h3 : e.inst = 3
    · have := hthree.mp h3
      cases inst <;> simp [InstructionType.toByte] at hsum ⊢ <;> omega
    · have := hbyte h3
      have := mt hthree.mpr h3
      cases inst <;> simp [InstructionType.toByte] at hsum ⊢ <;> omega
  refine ⟨UInt8.toNat_inj.mp hinst, hsize, ?_⟩
  rintro rfl
  rw [instMode, if_pos rfl, hinst] at hsum
  omega

/-- The opcode found for an instruction stands for it alone. -/
theorem lookupFirstOpcode_eq_some (hv : t.Valid maxMode) {inst : InstructionType}
    {size mode : ℕ} {opcode : UInt8}
    (h : (new t).lookupFirstOpcode inst size mode = some opcode) :
    Single t opcode inst size mode := by
  unfold lookupFirstOpcode at h
  split at h
  · cases h
  obtain ⟨before, after, hitems, -⟩ := fillSlots_eq_some rfl h
  have hmem : (some (instMode inst mode, size), opcode) ∈
      CodeTableData.opcodes.map fun opcode => (singleSlot t opcode, opcode) := by
    rw [hitems]
    simp
  obtain ⟨op, -, heq⟩ := List.mem_map.mp hmem
  obtain ⟨hslot, rfl⟩ := Prod.mk.inj heq
  unfold singleSlot at hslot
  split at hslot
  · next h2 =>
    obtain ⟨hsum, hsize⟩ := Prod.mk.inj (Option.some.inj hslot)
    exact .inl ⟨h2, entry_is_of_sum (hv.first op) hsum hsize⟩
  split at hslot
  · next h1 =>
    obtain ⟨hsum, hsize⟩ := Prod.mk.inj (Option.some.inj hslot)
    exact .inr ⟨h1, entry_is_of_sum (hv.second op) hsum hsize⟩
  · cases hslot

/-- Every instruction has an opcode that leaves its size open. -/
theorem lookupFirstOpcode_ne_none (hv : t.Valid maxMode) {inst : InstructionType} {mode : ℕ}
    (hi : inst ≠ .noop) (hm : mode ≤ maxMode) :
    (new t).lookupFirstOpcode inst 0 mode ≠ none := by
  unfold lookupFirstOpcode
  rw [if_neg (by omega)]
  have hbounds : 0 < instMode inst mode ∧
      instMode inst mode ≤ VCD_LAST_INSTRUCTION_TYPE + maxMode := by
    unfold instMode VCD_LAST_INSTRUCTION_TYPE
    cases inst with
    | noop => exact absurd rfl hi
    | add | run | copy => simp [InstructionType.toByte]; omega
  obtain ⟨opcode, hop⟩ := hv.single _ hbounds.1 hbounds.2
  simp only [CodeTableData.hasOpcodeForTypeAndMode, Bool.and_eq_true, decide_eq_true_iff] at hop
  obtain ⟨⟨hsize, h2⟩, hsum⟩ := hop
  have hslot : singleSlot t opcode = some (instMode inst mode, 0) := by
    rw [singleSlot, if_pos h2, hsum, hsize]
    rfl
  exact fillSlots_ne_none (List.mem_map.mpr ⟨opcode, CodeTableData.mem_opcodes opcode,
    Prod.ext hslot rfl⟩)

/-- An opcode stands for one instruction only. -/
theorem Single.is_of_is {opcode : UInt8} {inst : InstructionType} {size mode : ℕ}
    (h : Single t opcode inst size mode) (hi : inst ≠ .noop) {e : Entry}
    (he : e = entry1 t opcode ∧ t.inst2.at opcode = 0 ∨ e = entry2 t opcode ∧ t.inst1.at opcode = 0)
    (hne : e.inst ≠ 0) : e.Is inst size mode := by
  have hzero : ∀ {e : Entry}, e.Is inst size mode → e.inst ≠ 0 := by
    intro e he h0
    rw [he.1] at h0
    cases inst with
    | noop => exact hi rfl
    | add | run | copy => cases h0
  rcases he with ⟨rfl, h2⟩ | ⟨rfl, h1⟩
  · rcases h with ⟨-, his⟩ | ⟨-, his⟩
    · exact his
    · exact absurd h2 (hzero his)
  · rcases h with ⟨-, his⟩ | ⟨-, his⟩
    · exact absurd h1 (hzero his)
    · exact his

/-- The type of a valid entry. -/
theorem exists_inst {e : Entry} (hv : CodeTableData.validateOpcode e.inst e.size e.mode maxMode = true)
    (hne : e.inst ≠ 0) :
    ∃ inst, inst ≠ InstructionType.noop ∧ e.Is inst e.size.toNat e.mode.toNat := by
  have hle := CodeTableData.inst_le hv
  have hne' : e.inst.toNat ≠ 0 := fun h => hne (UInt8.toNat_inj.mp h)
  rcases Nat.lt_or_ge e.inst.toNat 2 with h | h
  · exact ⟨.add, by decide, UInt8.toNat_inj.mp (by show _ = 1; omega), rfl, fun _ => rfl⟩
  · rcases Nat.lt_or_ge e.inst.toNat 3 with h' | h'
    · exact ⟨.run, by decide, UInt8.toNat_inj.mp (by show _ = 2; omega), rfl, fun _ => rfl⟩
    · exact ⟨.copy, by decide, UInt8.toNat_inj.mp (by show _ = 3; omega), rfl, fun _ => rfl⟩

/-- The first instruction of an opcode with two is found by its own slot. -/
theorem firstOfDouble_eq {opcode : UInt8} {inst : InstructionType}
    (his : (entry1 t opcode).Is inst (t.size1.at opcode).toNat (t.mode1.at opcode).toNat) :
    firstOfDouble t opcode = (new t).lookupFirstOpcode inst (t.size1.at opcode).toNat
      (t.mode1.at opcode).toNat := by
  have hkey : (if t.inst1.at opcode = 3 then (t.inst1.at opcode).toNat + (t.mode1.at opcode).toNat
      else (t.inst1.at opcode).toNat) = instMode inst (t.mode1.at opcode).toNat := by
    have hinst : t.inst1.at opcode = inst.toByte := his.1
    rw [hinst]
    cases inst <;> rfl
  unfold firstOfDouble lookupFirstOpcode
  rw [hkey]
  rfl

/-- The compound opcode found for a second instruction keeps the first one. -/
theorem lookupSecondOpcode_eq_some (hv : t.Valid maxMode) {f opcode : UInt8}
    {inst inst' : InstructionType} {size mode size' mode' : ℕ}
    (hf : Single t f inst size mode) (hi : inst ≠ .noop)
    (h : (new t).lookupSecondOpcode f inst' size' mode' = some opcode) :
    (entry1 t opcode).Is inst size mode ∧ (entry2 t opcode).Is inst' size' mode' ∧
      t.inst1.at opcode ≠ 0 ∧ t.inst2.at opcode ≠ 0 := by
  unfold lookupSecondOpcode at h
  split at h
  · cases h
  obtain ⟨before, after, hitems, -⟩ := fillSlots_eq_some rfl h
  have hmem : (some (f, instMode inst' mode', size'), opcode) ∈
      CodeTableData.opcodes.map fun opcode => (doubleSlot t opcode, opcode) := by
    rw [hitems]
    simp
  obtain ⟨op, -, heq⟩ := List.mem_map.mp hmem
  obtain ⟨hslot, rfl⟩ := Prod.mk.inj heq
  unfold doubleSlot at hslot
  split at hslot
  · next hne =>
    obtain ⟨single, hsingle, hkey⟩ := Option.map_eq_some_iff.mp hslot
    obtain ⟨rfl, hpair⟩ := Prod.mk.inj hkey
    obtain ⟨hsum, hsize⟩ := Prod.mk.inj hpair
    -- the opcode is filed under the single opcode for its first instruction
    obtain ⟨inst₁, hi₁, his₁⟩ := exists_inst (e := entry1 t op) (hv.first op) hne.1
    rw [firstOfDouble_eq his₁] at hsingle
    have hsing := lookupFirstOpcode_eq_some hv hsingle
    have hfirst : inst₁ = inst ∧ (t.size1.at op).toNat = size ∧
        (inst = .copy → (t.mode1.at op).toNat = mode) := by
      have hbyte : Function.Injective InstructionType.toByte := by
        intro a b hab
        cases a <;> cases b <;> first | rfl | cases hab
      have hnz : ∀ {e : Entry} {s m : ℕ}, e.Is inst₁ s m → e.inst ≠ 0 := by
        intro e s m he h0
        rw [he.1] at h0
        exact hi₁ (hbyte h0)
      rcases hsing with ⟨h2, his⟩ | ⟨h1, his⟩
      · have := hf.is_of_is hi (.inl ⟨rfl, h2⟩) (hnz his)
        obtain rfl := hbyte (his.1.symm.trans this.1)
        exact ⟨rfl, his.2.1.symm.trans this.2.1, fun hc => (his.2.2 hc).symm.trans (this.2.2 hc)⟩
      · have := hf.is_of_is hi (.inr ⟨rfl, h1⟩) (hnz his)
        obtain rfl := hbyte (his.1.symm.trans this.1)
        exact ⟨rfl, his.2.1.symm.trans this.2.1, fun hc => (his.2.2 hc).symm.trans (this.2.2 hc)⟩
    obtain ⟨rfl, hsz, hmd⟩ := hfirst
    exact ⟨⟨his₁.1, hsz, hmd⟩, entry_is_of_sum (hv.second op) hsum hsize, hne⟩
  · cases hslot

end InstructionMap

end OpenVcdiff
