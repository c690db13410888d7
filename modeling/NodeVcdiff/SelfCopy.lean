import Mathlib.Algebra.Order.Ring.Nat

/-!
# Delta scripts

A script builds a target out of a source by adding symbols, repeating a symbol and copying from
the source followed by the target built so far. A copy may run into the symbols it appends.
-/

namespace SelfCopy

variable {α : Type*}

/-- One instruction. Addresses count from the start of the source. -/
inductive Instruction (α : Type*) where
  | add (data : List α)
  | run (size : ℕ) (symbol : α)
  | copy (address size : ℕ)
  deriving DecidableEq, Repr

/-- How many symbols an instruction appends. -/
def Instruction.size : Instruction α → ℕ
  | add data => data.length
  | run n _ => n
  | copy _ n => n

/-- Append `n` symbols one at a time, reading from `address` on in `source ++ out`. -/
def copySymbols (source out : List α) (address : ℕ) : ℕ → List α
  | 0 => out
  | n + 1 =>
    match (source ++ out)[address]? with
    | some x => copySymbols source (out ++ [x]) (address + 1) n
    | none => out

/-- Execute an instruction. A copy has to start before the end of the target. -/
def Instruction.exec (source out : List α) : Instruction α → Option (List α)
  | add data => some (out ++ data)
  | run n x => some (out ++ List.replicate n x)
  | copy address n =>
    if address < source.length + out.length then some (copySymbols source out address n) else none

/-- Execute a script. -/
def exec (source : List α) : List α → List (Instruction α) → Option (List α)
  | out, [] => some out
  | out, i :: is => (i.exec source out).bind fun out => exec source out is

variable {source out target : List α} {a n : ℕ}

/-! ## Copies -/

theorem length_copySymbols (h : a < source.length + out.length) :
    (copySymbols source out a n).length = out.length + n := by
  induction n generalizing out a with
  | zero => rfl
  | succ n ih =>
    have hx : a < (source ++ out).length := by rw [List.length_append]; exact h
    rw [copySymbols, List.getElem?_eq_getElem hx]
    show (copySymbols source _ _ _).length = _
    rw [ih (by simp only [List.length_append, List.length_singleton]; omega), List.length_append,
      List.length_singleton]
    omega

/-- A copy can be made in two parts. -/
theorem copySymbols_add (m : ℕ) (h : a < source.length + out.length) :
    copySymbols source out a (m + n) =
      copySymbols source (copySymbols source out a m) (a + m) n := by
  induction m generalizing out a with
  | zero => rw [Nat.zero_add]; rfl
  | succ m ih =>
    have hx : a < (source ++ out).length := by rw [List.length_append]; exact h
    rw [Nat.succ_add, copySymbols, copySymbols, List.getElem?_eq_getElem hx]
    show copySymbols source _ _ (m + n) = copySymbols source (copySymbols source _ _ m) _ n
    rw [ih (by simp only [List.length_append, List.length_singleton]; omega),
      Nat.add_assoc, Nat.add_comm 1 m]

/-- Copying what is there already is appending it. -/
theorem copySymbols_block (h : a + n ≤ source.length + out.length) :
    copySymbols source out a n = out ++ ((source ++ out).drop a).take n := by
  induction n generalizing out a with
  | zero => rw [copySymbols, List.take_zero, List.append_nil]
  | succ n ih =>
    have hx : a < (source ++ out).length := by rw [List.length_append]; omega
    rw [copySymbols, List.getElem?_eq_getElem hx]
    show copySymbols source _ _ n = _
    rw [ih (by simp only [List.length_append, List.length_singleton]; omega),
      List.drop_eq_getElem_cons hx, List.take_succ_cons, List.append_assoc,
      List.singleton_append, ← List.append_assoc source, List.drop_append_of_le_length (by omega),
      List.take_append_of_le_length]
    rw [List.length_drop, List.length_append]
    omega

/-- A copy of symbols that were compared extends one beginning of the target to a longer one. -/
theorem copySymbols_take {k : ℕ} (ha : a < source.length + k) (hk : k + n ≤ target.length)
    (h : ∀ i < n, (source ++ target)[a + i]? = target[k + i]?) :
    copySymbols source (target.take k) a n = target.take (k + n) := by
  induction n generalizing a k with
  | zero => rfl
  | succ n ih =>
    have hlen : (target.take k).length = k := by rw [List.length_take]; omega
    -- the symbol that is read is among those of the target that are there already
    have hlt : k < target.length := by omega
    have hread : (source ++ target.take k)[a]? = some target[k] := by
      rw [← List.getElem?_eq_getElem hlt]
      refine Eq.trans ?_ (h 0 (Nat.succ_pos n))
      rw [Nat.add_zero]
      by_cases hs : a < source.length
      · rw [List.getElem?_append_left hs, List.getElem?_append_left hs]
      · rw [List.getElem?_append_right (by omega), List.getElem?_append_right (by omega),
          List.getElem?_take_of_lt (by omega)]
    rw [copySymbols, hread]
    show copySymbols source (target.take k ++ [target[k]]) (a + 1) n = _
    rw [List.take_append_getElem hlt, ih (by omega) (by omega), Nat.add_assoc,
      Nat.add_comm 1 n]
    intro i hi
    have := h (i + 1) (by omega)
    rwa [← Nat.add_assoc, Nat.add_right_comm, ← Nat.add_assoc, Nat.add_right_comm k] at this

/-! ## Scripts -/

theorem exec_append (is js : List (Instruction α)) :
    exec source out (is ++ js) = (exec source out is).bind fun out => exec source out js := by
  induction is generalizing out with
  | nil => rfl
  | cons i is ih =>
    rw [List.cons_append, exec, exec]
    cases i.exec source out with
    | none => rfl
    | some out' => exact ih

theorem exec_singleton (i : Instruction α) : exec source out [i] = i.exec source out := by
  rw [exec]
  cases i.exec source out <;> rfl

/-- An instruction appends as many symbols as it says and leaves the others. -/
theorem Instruction.exec_eq_some {i : Instruction α} {out' : List α}
    (h : i.exec source out = some out') : out'.length = out.length + i.size := by
  cases i with
  | add data => cases h; exact List.length_append
  | run n x =>
    cases h
    show (out ++ List.replicate n x).length = _
    rw [List.length_append, List.length_replicate]
    rfl
  | copy address n =>
    by_cases ha : address < source.length + out.length
    · rw [exec, if_pos ha] at h
      cases h
      exact length_copySymbols ha
    · rw [exec, if_neg ha] at h
      cases h

/-- The size of what a script builds. -/
theorem length_of_exec {is : List (Instruction α)} {out' : List α}
    (h : exec source out is = some out') :
    out'.length = out.length + (is.map Instruction.size).sum := by
  induction is generalizing out with
  | nil => cases h; rfl
  | cons i is ih =>
    rw [exec] at h
    cases hi : i.exec source out with
    | none => rw [hi] at h; cases h
    | some mid =>
      rw [hi] at h
      rw [ih h, Instruction.exec_eq_some hi, List.map_cons, List.sum_cons, Nat.add_assoc]

end SelfCopy
