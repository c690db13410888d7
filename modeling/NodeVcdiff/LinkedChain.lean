import Mathlib.Data.List.Basic
import Mathlib.Logic.Function.Basic

/-!
# Chains of links

A table of links says for each item which item comes next. Following the links from an item gives a
list. Appending to a chain changes one link.
-/

namespace LinkedChain

variable {ι : Type*}

/-- From `start` the links lead through the items of a list, one after the other, and end. -/
inductive Follows (next : ι → Option ι) : Option ι → List ι → Prop
  | nil : Follows next none []
  | cons {i : ι} {l : List ι} : Follows next (next i) l → Follows next (some i) (i :: l)

variable {next next' : ι → Option ι} {start : Option ι} {l l' : List ι} {i j : ι}

/-- There is one list for each start. -/
theorem Follows.unique (h : Follows next start l) (h' : Follows next start l') : l = l' := by
  induction h generalizing l' with
  | nil => cases h'; rfl
  | cons _ ih =>
    cases h' with
    | cons h' => rw [ih h']

theorem Follows.head (h : Follows next start l) : start = l.head? := by
  cases h <;> rfl

/-- Only the links of the items in the chain matter. -/
theorem Follows.congr (h : Follows next start l) (hn : ∀ i ∈ l, next' i = next i) :
    Follows next' start l := by
  induction h with
  | nil => exact .nil
  | @cons i l _ ih =>
    obtain ⟨hi, hl⟩ := List.forall_mem_cons.mp hn
    refine .cons ?_
    rw [hi]
    exact ih hl

/-- The chain behind an item of a chain. -/
theorem Follows.drop (h : Follows next start (l ++ i :: l')) : Follows next (next i) l' := by
  induction l generalizing start with
  | nil =>
    cases h with
    | cons h => exact h
  | cons j l ih =>
    cases h with
    | cons h => exact ih h

/-- An item is put at the end: the link of the last item leads to it and it leads nowhere. -/
theorem Follows.snoc (h : Follows next start (l ++ [i])) (hl : i ∉ l) (hj : j ∉ l ++ [i])
    (hi' : next' i = some j) (hj' : next' j = none) (hn : ∀ k, k ≠ i → k ≠ j → next' k = next k) :
    Follows next' start (l ++ [i, j]) := by
  induction l generalizing start with
  | nil =>
    cases h with
    | cons _ =>
      refine .cons ?_
      rw [hi']
      refine .cons ?_
      rw [hj']
      exact .nil
  | cons k l ih =>
    rw [List.mem_cons, not_or] at hl
    rw [List.cons_append, List.mem_cons, not_or] at hj
    cases h with
    | cons h =>
      refine .cons ?_
      rw [hn k (Ne.symm hl.1) (Ne.symm hj.1)]
      exact ih h hl.2 hj.2

/-- Look for an item on a chain, at most `probes` links away. -/
def search (next : ι → Option ι) (found : ι → Bool) : (probes : ℕ) → Option ι → Option ι
  | _, none => none
  | 0, some i => if found i then some i else none
  | probes + 1, some i => if found i then some i else search next found probes (next i)

/-- What is found is the first such item of the chain. -/
theorem search_eq (found : ι → Bool) (h : Follows next start l) (probes : ℕ) :
    search next found probes start = (l.take (probes + 1)).find? found := by
  induction h generalizing probes with
  | nil => cases probes <;> rfl
  | @cons i l _ ih =>
    rw [List.take_succ_cons]
    cases hf : found i with
    | true =>
      rw [List.find?_cons_of_pos hf]
      cases probes <;> exact if_pos hf
    | false =>
      have hne : ¬found i = true := by rw [hf]; exact Bool.false_ne_true
      rw [List.find?_cons_of_neg hne]
      cases probes with
      | zero => exact if_neg hne
      | succ probes => exact (if_neg hne).trans (ih probes)

end LinkedChain
