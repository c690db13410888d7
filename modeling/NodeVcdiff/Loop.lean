import Mathlib.Data.List.Basic

/-!
# Loops and recursions that terminate

A loop body goes on with a new state or leaves with a result; the body of a recursion may also do
something with the result of the call it makes. Both carry the reason why they end, so that running
them is a total function that can also be evaluated.
-/

/-- A loop with states `σ` and results `ρ`. Each state it goes on with is smaller. -/
structure Loop (σ ρ : Type*) where
  body : σ → σ ⊕ ρ
  size : σ → ℕ
  shrinks : ∀ s t, body s = .inl t → size t < size s

namespace Loop

variable {σ ρ : Type*} (L : Loop σ ρ)

/-- At most `n` rounds, which are enough for `s`. -/
def runFor : (n : ℕ) → (s : σ) → L.size s < n → ρ
  | 0, _, h => absurd h (Nat.not_lt_zero _)
  | n + 1, s, h =>
    match hs : L.body s with
    | .inl t => runFor n t (Nat.lt_of_lt_of_le (L.shrinks s t hs) (Nat.le_of_lt_succ h))
    | .inr r => r

/-- The result of the loop. -/
def run (s : σ) : ρ := L.runFor (L.size s + 1) s (Nat.lt_succ_self _)

variable {L} {s t : σ} {r : ρ}

theorem runFor_of_inr {n : ℕ} (h : L.size s < n) (hs : L.body s = .inr r) :
    L.runFor n s h = r := by
  cases n with
  | zero => exact absurd h (Nat.not_lt_zero _)
  | succ n =>
    unfold runFor
    split
    · next h' => rw [hs] at h'; cases h'
    · next h' => rw [hs] at h'; exact (Sum.inr.inj h').symm

theorem runFor_of_inl {n : ℕ} (h : L.size s < n + 1) (hs : L.body s = .inl t) :
    L.runFor (n + 1) s h =
      L.runFor n t (Nat.lt_of_lt_of_le (L.shrinks s t hs) (Nat.le_of_lt_succ h)) := by
  conv_lhs => unfold runFor
  split
  · next h' =>
    obtain rfl := Sum.inl.inj (hs.symm.trans h')
    rfl
  · next h' => rw [hs] at h'; cases h'

/-- How many rounds are allowed does not matter. -/
theorem runFor_congr {m n : ℕ} (hm : L.size s < m) (hn : L.size s < n) :
    L.runFor m s hm = L.runFor n s hn := by
  induction m generalizing s n with
  | zero => exact absurd hm (Nat.not_lt_zero _)
  | succ m ih =>
    cases n with
    | zero => exact absurd hn (Nat.not_lt_zero _)
    | succ n =>
      cases hs : L.body s with
      | inl t => rw [runFor_of_inl hm hs, runFor_of_inl hn hs]; exact ih _ _
      | inr r => rw [runFor_of_inr hm hs, runFor_of_inr hn hs]

theorem run_of_inr (hs : L.body s = .inr r) : L.run s = r := runFor_of_inr _ hs

theorem run_of_inl (hs : L.body s = .inl t) : L.run s = L.run t := by
  rw [run, runFor_of_inl _ hs]
  exact runFor_congr _ _

/-- The rule of loops: what the body keeps holds when it leaves. -/
theorem run_induction {P : σ → Prop} {Q : ρ → Prop} (hP : P s)
    (keeps : ∀ s t, P s → L.body s = .inl t → P t)
    (leaves : ∀ s r, P s → L.body s = .inr r → Q r) : Q (L.run s) := by
  induction h : L.size s using Nat.strongRecOn generalizing s with
  | ind n ih =>
    cases hs : L.body s with
    | inl t =>
      rw [run_of_inl hs]
      exact ih _ (h ▸ L.shrinks s t hs) (keeps s t hP hs) rfl
    | inr r =>
      rw [run_of_inr hs]
      exact leaves s r hP hs

/-- A relation between where the loop starts and what it returns, shown backwards. -/
theorem run_rel {R : σ → ρ → Prop} (goes : ∀ s t r, L.body s = .inl t → R t r → R s r)
    (leaves : ∀ s r, L.body s = .inr r → R s r) (s : σ) : R s (L.run s) := by
  induction h : L.size s using Nat.strongRecOn generalizing s with
  | ind n ih =>
    cases hs : L.body s with
    | inl t =>
      rw [run_of_inl hs]
      exact goes s t _ hs (ih _ (h ▸ L.shrinks s t hs) t rfl)
    | inr r =>
      rw [run_of_inr hs]
      exact leaves s r hs

end Loop

/-- A recursion with arguments `σ` and results `ρ`. The body returns, or it makes one call, of
something smaller, and goes on with what that returns. -/
structure Recursion (σ ρ : Type*) where
  body : σ → ρ ⊕ (σ × (ρ → ρ))
  size : σ → ℕ
  shrinks : ∀ s t k, body s = .inr (t, k) → size t < size s

namespace Recursion

variable {σ ρ : Type*} (L : Recursion σ ρ)

/-- Calls that are nested at most `n` deep, which is enough for `s`. -/
def runFor : (n : ℕ) → (s : σ) → L.size s < n → ρ
  | 0, _, h => absurd h (Nat.not_lt_zero _)
  | n + 1, s, h =>
    match hs : L.body s with
    | .inl r => r
    | .inr (t, k) =>
      k (runFor n t (Nat.lt_of_lt_of_le (L.shrinks s t k hs) (Nat.le_of_lt_succ h)))

/-- The result of the recursion. -/
def run (s : σ) : ρ := L.runFor (L.size s + 1) s (Nat.lt_succ_self _)

variable {L} {s t : σ} {r : ρ} {k : ρ → ρ}

theorem runFor_of_inl {n : ℕ} (h : L.size s < n) (hs : L.body s = .inl r) :
    L.runFor n s h = r := by
  cases n with
  | zero => exact absurd h (Nat.not_lt_zero _)
  | succ n =>
    unfold runFor
    split
    · next h' => rw [hs] at h'; exact (Sum.inl.inj h').symm
    · next h' => rw [hs] at h'; cases h'

theorem runFor_of_inr {n : ℕ} (h : L.size s < n + 1) (hs : L.body s = .inr (t, k)) :
    L.runFor (n + 1) s h =
      k (L.runFor n t (Nat.lt_of_lt_of_le (L.shrinks s t k hs) (Nat.le_of_lt_succ h))) := by
  conv_lhs => unfold runFor
  split
  · next h' => rw [hs] at h'; cases h'
  · next h' =>
    obtain ⟨rfl, rfl⟩ := Prod.mk.inj (Sum.inr.inj (hs.symm.trans h'))
    rfl

/-- How deep calls may be nested does not matter. -/
theorem runFor_congr {m n : ℕ} (hm : L.size s < m) (hn : L.size s < n) :
    L.runFor m s hm = L.runFor n s hn := by
  induction m generalizing s n with
  | zero => exact absurd hm (Nat.not_lt_zero _)
  | succ m ih =>
    cases n with
    | zero => exact absurd hn (Nat.not_lt_zero _)
    | succ n =>
      cases hs : L.body s with
      | inl r => rw [runFor_of_inl hm hs, runFor_of_inl hn hs]
      | inr p =>
        rw [runFor_of_inr hm hs, runFor_of_inr hn hs]
        exact congrArg p.2 (ih _ _)

theorem run_of_inl (hs : L.body s = .inl r) : L.run s = r := runFor_of_inl _ hs

theorem run_of_inr (hs : L.body s = .inr (t, k)) : L.run s = k (L.run t) := by
  rw [run, runFor_of_inr _ hs]
  exact congrArg k (runFor_congr _ _)

/-- The rule of recursions: what holds of each call follows from what holds of the call in it. -/
theorem run_induction {R : σ → ρ → Prop} (returns : ∀ s r, L.body s = .inl r → R s r)
    (calls : ∀ s t k r, L.body s = .inr (t, k) → R t r → R s (k r)) (s : σ) : R s (L.run s) := by
  induction h : L.size s using Nat.strongRecOn generalizing s with
  | ind n ih =>
    cases hs : L.body s with
    | inl r =>
      rw [run_of_inl hs]
      exact returns s r hs
    | inr p =>
      rw [run_of_inr hs]
      exact calls s p.1 p.2 _ hs (ih _ (h ▸ L.shrinks s p.1 p.2 hs) p.1 rfl)

end Recursion
