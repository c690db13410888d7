import NodeVcdiff.OpenVcdiff.InstructionMap

/-!
# `decodetable.cc`

The reader that takes instructions out of opcodes.
-/

namespace OpenVcdiff

open Incremental (Parsed Parser)
open InstructionMap (Entry entry1 entry2)

/-- `VCDiffCodeTableReader`. The position in the instructions is passed to its functions;
`kNoOpcode` is `none`. -/
structure CodeTableReader where
  codeTableData : CodeTableData
  lastInstructionStart : Option (List UInt8)
  pendingSecondInstruction : Option UInt8
  lastPendingSecondInstruction : Option UInt8
  deriving DecidableEq

/-- What `GetNextInstruction` returns. -/
inductive NextInstruction where
  | instruction (inst : UInt8) (size : ℕ) (mode : UInt8)
  | error
  | endOfData
  deriving DecidableEq, Repr

namespace CodeTableReader

/-- The constructor. -/
def new : CodeTableReader := ⟨.kDefaultCodeTableData, none, none, none⟩

variable (r : CodeTableReader)

/-- `UseCodeTable`. -/
def useCodeTable (codeTableData : CodeTableData) (maxMode : ℕ) : Bool × CodeTableReader :=
  if codeTableData.validate maxMode then (true, { r with codeTableData }) else (false, r)

/-- `Init`. -/
def init : CodeTableReader :=
  { r with
    lastInstructionStart := none
    pendingSecondInstruction := none
    lastPendingSecondInstruction := none }

/-- `UpdatePointers`. -/
def updatePointers (instructionsAndSizes : List UInt8) : CodeTableReader :=
  { r with
    lastInstructionStart := some instructionsAndSizes
    lastPendingSecondInstruction := r.pendingSecondInstruction }

/-- The loop of `GetNextInstruction`: an instruction, the pending instruction after it and the
data after it. `none` when the data ends before an instruction. -/
def nextEntry (t : CodeTableData) :
    Option UInt8 → List UInt8 → Option (Entry × Option UInt8 × List UInt8)
  | some opcode, data => some (entry2 t opcode, none, data)
  | none, [] => none
  | none, opcode :: data =>
    let pending := if t.inst2.at opcode ≠ 0 then some opcode else none
    if t.inst1.at opcode = 0 then nextEntry t pending data
    else some (entry1 t opcode, pending, data)

/-- `UnGetInstruction`: the reader and the position in the instructions. -/
def unGetInstruction (data : List UInt8) : CodeTableReader × List UInt8 :=
  match r.lastInstructionStart with
  | none => (r, data)
  | some start => ({ r with pendingSecondInstruction := r.lastPendingSecondInstruction }, start)

/-- `GetNextInstruction`: the instruction, the reader and the position in the instructions. -/
def getNextInstruction (data : List UInt8) : NextInstruction × CodeTableReader × List UInt8 :=
  let r := { r with
    lastInstructionStart := some data
    lastPendingSecondInstruction := r.pendingSecondInstruction }
  match nextEntry r.codeTableData r.pendingSecondInstruction data with
  | none => (.endOfData, { r with pendingSecondInstruction := none }, [])
  | some (e, pending, rest) =>
    let r := { r with pendingSecondInstruction := pending }
    if e.size = 0 then
      match VarintBE.parse .int32 rest with
      | .error => (.error, r, rest)
      | .endOfData => (.endOfData, r.unGetInstruction rest)
      | .success size rest => (.instruction e.inst size e.mode, r, rest)
    else (.instruction e.inst e.size.toNat e.mode, r, rest)

/-! ## Where reading stops -/

variable {t : CodeTableData} {e : Entry} {pending pending' : Option UInt8}
  {data data' rest : List UInt8}

/-- How much there is to read: a pending instruction counts less than a byte. -/
def remaining (pending : Option UInt8) (data : List UInt8) : ℕ :=
  2 * data.length + if pending.isSome then 1 else 0

theorem remaining_le_of_suffix (h : rest <:+ data) (pending : Option UInt8) :
    remaining pending rest ≤ remaining pending data := by
  have := h.length_le
  unfold remaining
  omega

theorem suffix_of_nextEntry (h : nextEntry t pending data = some (e, pending', rest)) :
    rest <:+ data := by
  induction data generalizing pending with
  | nil =>
    cases pending with
    | none => cases h
    | some opcode => cases h; exact List.suffix_refl _
  | cons b data ih =>
    cases pending with
    | some opcode => cases h; exact List.suffix_refl _
    | none =>
      unfold nextEntry at h
      simp only at h
      split at h
      · exact (ih h).trans (List.suffix_cons b data)
      · cases h; exact List.suffix_cons b _

/-- Something is read of every instruction. -/
theorem remaining_lt_of_nextEntry (h : nextEntry t pending data = some (e, pending', rest)) :
    remaining pending' rest < remaining pending data := by
  have hone : ∀ opcode : UInt8, (if t.inst2.at opcode ≠ 0 then some opcode else none) = none ∨
      (if t.inst2.at opcode ≠ 0 then some opcode else none) = some opcode := by
    intro opcode
    split
    · exact .inr rfl
    · exact .inl rfl
  induction data generalizing pending with
  | nil =>
    cases pending with
    | none => cases h
    | some opcode => cases h; simp [remaining]
  | cons b data ih =>
    cases pending with
    | some opcode => cases h; simp [remaining]
    | none =>
      unfold nextEntry at h
      simp only at h
      split at h
      · refine Nat.lt_trans (ih h) ?_
        rcases hone b with hb | hb
        · rw [hb]; simp [remaining]
        · rw [hb]; simp [remaining]; omega
      · cases h
        rcases hone b with hb | hb
        · rw [hb]; simp [remaining]
        · rw [hb]; simp [remaining]; omega

/-- An instruction that is returned was read from the front of the data. -/
theorem getNextInstruction_instruction {r' : CodeTableReader} {inst mode : UInt8} {size : ℕ}
    (h : r.getNextInstruction data = (.instruction inst size mode, r', rest)) :
    r'.codeTableData = r.codeTableData ∧ rest <:+ data ∧
      remaining r'.pendingSecondInstruction rest < remaining r.pendingSecondInstruction data ∧
      r'.lastInstructionStart = some data ∧
      r'.lastPendingSecondInstruction = r.pendingSecondInstruction ∧
      size ≤ VarintBE.kMaxVal .int32 := by
  unfold getNextInstruction at h
  simp only at h
  cases hn : nextEntry r.codeTableData r.pendingSecondInstruction data with
  | none => rw [hn] at h; cases h
  | some p =>
    obtain ⟨e, pending, mid⟩ := p
    have hsuf := suffix_of_nextEntry hn
    have hlt := remaining_lt_of_nextEntry hn
    rw [hn] at h
    simp only at h
    split at h
    · cases hp : VarintBE.parse .int32 mid with
      | error => rw [hp] at h; cases h
      | endOfData => rw [hp] at h; cases h
      | success n after =>
        rw [hp] at h
        cases h
        obtain ⟨used, rfl, -, hmax⟩ := VarintBE.parse_success_iff.mp hp
        have hafter : rest <:+ used ++ rest := List.suffix_append used rest
        refine ⟨rfl, hafter.trans hsuf, ?_, rfl, rfl, hmax⟩
        exact Nat.lt_of_le_of_lt (remaining_le_of_suffix hafter _) hlt
    · cases h
      refine ⟨rfl, hsuf, hlt, rfl, rfl, ?_⟩
      have := e.size.toNat_lt
      show _ ≤ 0x7FFFFFFF
      omega

end CodeTableReader

end OpenVcdiff
