import Mathlib.Data.List.Basic
import Mathlib.Data.List.Nodup

/-!
# A ledger of numbered callbacks

A server takes one call after the other. It answers a call at once or later, or installs the
callback of the call with a request; when the request is done, the callback that is
installed then is invoked with the output, and answers once the output was passed on. A
failed request answers nothing, and nothing follows it. The ledger lists what happened to
which call, newest first.
-/

namespace Ledger

/-- What happens to the call numbered `n`. -/
inductive Mark (β : Type*) where
  | called (n : ℕ)
  | installed (n : ℕ)
  | invoked (n : ℕ)
  | pushed (n : ℕ) (out : β)
  | failed (n : ℕ)
  | answered (n : ℕ) (ok : Bool)
  deriving DecidableEq, Repr

/-- How far the last call is. -/
inductive Phase where
  | idle
  | taken
  | installed
  | delivered
  | broken
  deriving DecidableEq, Repr

variable {β : Type*}

/-- The ledgers of such a server, with the number of calls so far. -/
inductive Kept : ℕ → Phase → List (Mark β) → Prop where
  | nil : Kept 0 .idle []
  | call {n : ℕ} {h : List (Mark β)} : Kept n .idle h → Kept (n + 1) .taken (.called n :: h)
  | answer {n : ℕ} {h : List (Mark β)} (ok : Bool) : Kept (n + 1) .taken h →
      Kept (n + 1) .idle (.answered n ok :: h)
  | install {n : ℕ} {h : List (Mark β)} : Kept (n + 1) .taken h →
      Kept (n + 1) .installed (.installed n :: h)
  | fail {n : ℕ} {h : List (Mark β)} : Kept (n + 1) .installed h →
      Kept (n + 1) .broken (.failed n :: h)
  | deliver {n : ℕ} {h : List (Mark β)} (out : β) : Kept (n + 1) .installed h →
      Kept (n + 1) .delivered (.pushed n out :: .invoked n :: h)
  | finish {n : ℕ} {h : List (Mark β)} : Kept (n + 1) .delivered h →
      Kept (n + 1) .idle (.answered n true :: h)

/-- The calls, oldest first. -/
def called : List (Mark β) → List ℕ
  | [] => []
  | .called n :: h => called h ++ [n]
  | _ :: h => called h

/-- The calls whose callbacks were installed, oldest first. -/
def installed : List (Mark β) → List ℕ
  | [] => []
  | .installed n :: h => installed h ++ [n]
  | _ :: h => installed h

/-- The calls whose installed callbacks were invoked, oldest first. -/
def invoked : List (Mark β) → List ℕ
  | [] => []
  | .invoked n :: h => invoked h ++ [n]
  | _ :: h => invoked h

/-- The calls that were answered, oldest first. -/
def answered : List (Mark β) → List ℕ
  | [] => []
  | .answered n _ :: h => answered h ++ [n]
  | _ :: h => answered h

variable {c n : ℕ} {p : Phase} {h newer older : List (Mark β)} {out : β}

theorem mem_answered : n ∈ answered h ↔ ∃ ok, Mark.answered n ok ∈ h := by
  induction h with
  | nil => simp [answered]
  | cons m h ih => cases m <;> simp [answered, ih, or_comm, exists_or]

/-- Calls are numbered in their order. -/
theorem Kept.called_eq (hk : Kept c p h) : called h = List.range c := by
  induction hk with
  | nil => rfl
  | call _ ih => rw [called, ih, List.range_succ]
  | answer _ _ ih | install _ ih | fail _ ih | deliver _ _ ih | finish _ ih => exact ih

/-- While a call is not done, there was one. -/
theorem Kept.calls_eq (hk : Kept c p h) (hp : p ≠ .idle) : ∃ n, c = n + 1 := by
  cases hk with
  | nil => exact absurd rfl hp
  | _ => exact ⟨_, rfl⟩

/-- Calls are answered at most once and in their order, and a running call is not. -/
theorem Kept.answered_lt (hk : Kept c p h) : (answered h).Pairwise (· < ·) ∧
    ∀ n ∈ answered h, if p = .idle then n < c else n + 1 < c := by
  induction hk with
  | nil => exact ⟨.nil, by simp [answered]⟩
  | call _ ih => exact ⟨ih.1, fun n hn => by have := ih.2 n hn; simp at this ⊢; omega⟩
  | answer _ _ ih | finish _ ih =>
    obtain ⟨h1, h2⟩ := ih
    simp only [reduceCtorEq, if_false, if_true] at h2 ⊢
    refine ⟨List.pairwise_append.mpr ⟨h1, List.pairwise_singleton _ _, fun a ha b hb => ?_⟩, ?_⟩
    · have := h2 a ha
      rw [List.mem_singleton.mp hb]
      omega
    · intro a ha
      rcases List.mem_append.mp ha with ha | ha
      · have := h2 a ha
        omega
      · rw [List.mem_singleton.mp ha]
        omega
  | install _ ih | fail _ ih | deliver _ _ ih => exact ih

/-- Every number in the ledger is that of a call. -/
theorem Kept.installed_lt (hk : Kept c p h) : ∀ n ∈ installed h,
    if p = .idle ∨ p = .installed ∨ p = .delivered ∨ p = .broken then n < c else n + 1 < c := by
  induction hk with
  | nil => simp [installed]
  | call _ ih => exact fun n hn => by have := ih n hn; simp at this ⊢; omega
  | answer _ _ ih => exact fun n hn => by have := ih n hn; simp at this ⊢; omega
  | install _ ih =>
    intro n hn
    simp only [installed, List.mem_append, List.mem_singleton] at hn
    rcases hn with hn | rfl
    · have := ih n hn
      simp at this ⊢
      omega
    · simp
  | fail _ ih | deliver _ _ ih | finish _ ih => exact fun n hn => by simpa [installed] using ih n hn

/-- The callbacks invoked are those installed, in the same order; one may be left. -/
theorem Kept.installed_eq (hk : Kept c p h) : installed h =
    invoked h ++ if p = .installed ∨ p = .broken then [c - 1] else [] := by
  induction hk with
  | nil => rfl
  | call _ ih | answer _ _ ih | finish _ ih | fail _ ih | deliver _ _ ih =>
    simpa [installed, invoked] using ih
  | install _ ih =>
    simp only [reduceCtorEq, or_self, if_false, List.append_nil] at ih
    simp [installed, invoked, ih]

/-- A callback that was invoked has answered, unless it is about to. -/
theorem Kept.answered_of_invoked (hk : Kept c p h) (hi : .invoked n ∈ h) :
    (p = .delivered ∧ n + 1 = c) ∨ .answered n true ∈ h := by
  induction hk with
  | nil => cases hi
  | call _ ih | answer _ _ ih | install _ ih | fail _ ih =>
    refine (ih ((List.mem_cons.mp hi).resolve_left (by simp))).imp ?_ (List.mem_cons_of_mem _)
    rintro ⟨hp, -⟩
    cases hp
  | deliver _ _ ih =>
    simp only [List.mem_cons, reduceCtorEq, false_or, Mark.invoked.injEq] at hi
    rcases hi with rfl | hi
    · exact .inl ⟨rfl, rfl⟩
    · rcases ih hi with ⟨hp, -⟩ | ha
      · cases hp
      · exact .inr (List.mem_cons_of_mem _ (List.mem_cons_of_mem _ ha))
  | finish _ ih =>
    rcases ih ((List.mem_cons.mp hi).resolve_left (by simp)) with ⟨-, hn⟩ | ha
    · obtain rfl := Nat.succ.inj hn
      exact .inr List.mem_cons_self
    · exact .inr (List.mem_cons_of_mem _ ha)

/-- After its output was passed on, a callback answers before anything else happens. -/
theorem Kept.answered_next (hk : Kept c p h) (heq : h = newer ++ .pushed n out :: older) :
    (newer = [] ∧ p = .delivered ∧ n + 1 = c) ∨
      ∃ newer', newer = newer' ++ [.answered n true] := by
  have snoc : ∀ {m : Mark β} {newer : List (Mark β)},
      (∃ newer', newer = newer' ++ [.answered n true]) →
        ∃ newer', m :: newer = newer' ++ [.answered n true] := by
    rintro m newer ⟨newer', rfl⟩
    exact ⟨m :: newer', rfl⟩
  induction hk generalizing newer with
  | nil => simp at heq
  | call _ ih | answer _ _ ih | install _ ih | fail _ ih =>
    rcases newer with _ | ⟨m, newer⟩
    · cases heq
    · right
      rcases ih (List.cons.inj heq).2 with ⟨-, hp, -⟩ | h'
      · cases hp
      · exact snoc h'
  | deliver _ _ ih =>
    rcases newer with _ | ⟨m, _ | ⟨m', newer⟩⟩
    · obtain ⟨hm, -⟩ := List.cons.inj heq
      cases hm
      exact .inl ⟨rfl, rfl, rfl⟩
    · cases (List.cons.inj (List.cons.inj heq).2).1
    · right
      rcases ih (List.cons.inj (List.cons.inj heq).2).2 with ⟨-, hp, -⟩ | h'
      · cases hp
      · exact snoc (snoc h')
  | finish _ ih =>
    rcases newer with _ | ⟨m, newer⟩
    · cases heq
    · obtain ⟨rfl, hrest⟩ := List.cons.inj heq
      right
      rcases ih hrest with ⟨rfl, -, hn⟩ | h'
      · obtain rfl := Nat.succ.inj hn
        exact ⟨[], rfl⟩
      · exact snoc h'

/-- An installed callback answers only right after its output was passed on. -/
theorem Kept.pushed_before (hk : Kept c p h) {ok : Bool}
    (heq : h = newer ++ .answered n ok :: older) (hi : n ∈ installed h) :
    ok = true ∧ ∃ out older', older = .pushed n out :: .invoked n :: older' := by
  induction hk generalizing newer with
  | nil => simp at heq
  | @call c h hk ih | @fail c h hk ih =>
    rcases newer with _ | ⟨m, newer⟩
    · cases heq
    · exact ih (List.cons.inj heq).2 hi
  | @answer c h ok' hk ih =>
    rcases newer with _ | ⟨m, newer⟩
    · -- the call was not installed: it answers while it runs
      cases (List.cons.inj heq).1
      have := hk.installed_lt n hi
      simp at this
    · exact ih (List.cons.inj heq).2 hi
  | @install c h hk ih =>
    rcases newer with _ | ⟨m, newer⟩
    · cases heq
    · obtain ⟨-, hrest⟩ := List.cons.inj heq
      rcases List.mem_append.mp hi with hi | hi
      · exact ih hrest hi
      · obtain rfl := List.mem_singleton.mp hi
        have hmem : n ∈ answered h :=
          mem_answered.mpr ⟨ok, hrest ▸ List.mem_append_right _ List.mem_cons_self⟩
        have := hk.answered_lt.2 n hmem
        simp at this
  | @deliver c h out hk ih =>
    rcases newer with _ | ⟨m, _ | ⟨m', newer⟩⟩
    · cases (List.cons.inj heq).1
    · cases (List.cons.inj (List.cons.inj heq).2).1
    · exact ih (List.cons.inj (List.cons.inj heq).2).2 hi
  | @finish c h hk ih =>
    rcases newer with _ | ⟨m, newer⟩
    · obtain ⟨hm, hrest⟩ := List.cons.inj heq
      cases hm
      cases hk with
      | deliver out _ => exact ⟨rfl, out, _, hrest.symm⟩
    · exact ih (List.cons.inj heq).2 hi

/-- A failed request is the last one, and its call is not answered. -/
theorem Kept.failed_last (hk : Kept c p h) (hf : .failed n ∈ h) :
    p = .broken ∧ n + 1 = c ∧ n ∈ installed h := by
  induction hk with
  | nil => cases hf
  | call _ ih | answer _ _ ih | install _ ih | finish _ ih =>
    have := (ih ((List.mem_cons.mp hf).resolve_left (by simp))).1
    cases this
  | deliver _ _ ih =>
    have := (ih (by simpa using hf)).1
    cases this
  | fail hk ih =>
    rcases List.mem_cons.mp hf with hm | hf
    · cases hm
      have := hk.installed_eq
      exact ⟨rfl, rfl, by simp [installed, this]⟩
    · have := (ih hf).1
      cases this

theorem Kept.failed_unanswered (hk : Kept c p h) (hf : .failed n ∈ h) : n ∉ answered h := by
  obtain ⟨rfl, hn, -⟩ := hk.failed_last hf
  intro ha
  have := hk.answered_lt.2 n ha
  simp at this
  omega

end Ledger
