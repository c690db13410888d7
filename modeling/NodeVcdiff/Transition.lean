import Mathlib.Logic.Relation
import Mathlib.Order.WellFounded

/-!
# Labelled steps: reachable states, invariants, inevitable outcomes

A system is a partial step function `S → A → Option S`. `Reaches` collects the states of
the runs whose every step meets a side condition, `Inevitable` the states from which each
run of a relation ends in a goal.
-/

namespace Transition

variable {S A : Type*}

/-- The states reached from `s₀` by runs all of whose steps satisfy `ok`. -/
inductive Reaches (step : S → A → Option S) (ok : S → A → Prop) (s₀ : S) : S → Prop where
  | refl : Reaches step ok s₀ s₀
  | tail {s s' : S} {a : A} : Reaches step ok s₀ s → ok s a → step s a = some s' →
      Reaches step ok s₀ s'

/-- The side condition of unrestricted runs. -/
def anyStep : S → A → Prop := fun _ _ => True

variable {step : S → A → Option S} {ok ok' : S → A → Prop} {s₀ s s' : S}

/-- What holds at the start and survives every permitted step holds in every run. -/
theorem Reaches.invariant {P : S → Prop} (h : Reaches step ok s₀ s) (h0 : P s₀)
    (hstep : ∀ s a s', P s → ok s a → step s a = some s' → P s') : P s := by
  induction h with
  | refl => exact h0
  | tail _ hok hs ih => exact hstep _ _ _ ih hok hs

theorem Reaches.mono (h : Reaches step ok s₀ s) (himp : ∀ s a, ok s a → ok' s a) :
    Reaches step ok' s₀ s := by
  induction h with
  | refl => exact .refl
  | tail _ hok hs ih => exact ih.tail (himp _ _ hok) hs

theorem Reaches.trans (h : Reaches step ok s₀ s) (h' : Reaches step ok s s') :
    Reaches step ok s₀ s' := by
  induction h' with
  | refl => exact h
  | tail _ hok hs ih => exact ih.tail hok hs

instance : ∀ (s : S) (a : A), Decidable (anyStep s a) := fun _ _ => .isTrue trivial

section Runs

variable (step) (ok) [∀ s a, Decidable (ok s a)]

/-- Execute a list of actions, failing as soon as one of them is not enabled or not permitted. -/
def runActs : S → List A → Option S
  | s, [] => some s
  | s, a :: as => if ok s a then (step s a).bind fun s' => runActs s' as else none

variable {step} {ok}

/-- An executed list of actions is a run. -/
theorem reaches_of_runActs {as : List A} (h : runActs step ok s as = some s') :
    Reaches step ok s s' := by
  induction as generalizing s with
  | nil => cases h; exact .refl
  | cons a as ih =>
    rw [runActs] at h
    split at h
    · next hok =>
      obtain ⟨t, ht, h⟩ := Option.bind_eq_some_iff.mp h
      exact (Reaches.refl.tail hok ht).trans (ih h)
    · cases h

/-- What can be decided of the state that a list of actions leads to holds of some state
reached. -/
theorem exists_reaches {P : S → Prop} [DecidablePred P] (as : List A)
    (h : (runActs step ok s as).any (fun t => decide (P t)) = true) :
    ∃ t, Reaches step ok s t ∧ P t := by
  obtain ⟨ht, hp⟩ := (Option.any_eq_true_iff_get _ _).mp h
  exact ⟨_, reaches_of_runActs (Option.some_get ht).symm, by simpa using hp⟩

end Runs

/-- Every run of `next` from here reaches `P`: either `P` holds now, or some step is
possible and every possible step leads to an inevitable state again. -/
inductive Inevitable (next : S → S → Prop) (P : S → Prop) : S → Prop where
  | now {s : S} : P s → Inevitable next P s
  | later {s : S} : (∃ s', next s s') → (∀ s', next s s' → Inevitable next P s') →
      Inevitable next P s

variable {next : S → S → Prop} {P Q : S → Prop}

theorem Inevitable.imp (h : Inevitable next P s) (hPQ : ∀ s, P s → Q s) :
    Inevitable next Q s := by
  induction h with
  | now hp => exact .now (hPQ _ hp)
  | later he _ ih => exact .later he ih

/-- What is inevitable is reached. -/
theorem Inevitable.exists_reaches (h : Inevitable next P s)
    (hnext : ∀ s s', next s s' → ∃ a, ok s a ∧ step s a = some s') :
    ∃ t, Reaches step ok s t ∧ P t := by
  induction h with
  | now hp => exact ⟨_, .refl, hp⟩
  | later he _ ih =>
    obtain ⟨s', hn⟩ := he
    obtain ⟨a, hok, hs⟩ := hnext _ _ hn
    obtain ⟨t, hr, hp⟩ := ih s' hn
    exact ⟨t, (Reaches.refl.tail hok hs).trans hr, hp⟩

/-- A system whose steps project to steps of this one, and that can step whenever this one can,
reaches what this one reaches, along with what its own steps keep. -/
theorem Inevitable.lift {T : Type*} {next' : T → T → Prop} {I : T → Prop} (f : T → S)
    (hstep : ∀ t t', I t → next' t t' → next (f t) (f t') ∧ I t')
    (hsim : ∀ t s', next (f t) s' → ∃ t', next' t t') (h : Inevitable next P s) {t : T}
    (hs : f t = s) (hI : I t) : Inevitable next' (fun t => P (f t) ∧ I t) t := by
  induction h generalizing t with
  | now hp => exact .now ⟨hs ▸ hp, hI⟩
  | later he _ ih =>
    subst hs
    obtain ⟨s', hn⟩ := he
    refine .later (hsim t s' hn) fun t' hn' => ?_
    obtain ⟨hproj, hI'⟩ := hstep t t' hI hn'
    exact ih (f t') hproj rfl hI'

/-- A goal is inevitable when a measure decreases along every step taken before it and the
system cannot stop before it. -/
theorem Inevitable.of_measure {X : Type*} {r : X → X → Prop} (wf : WellFounded r)
    (μ : S → X) {I : S → Prop} (hlive : ∀ s, I s → ¬ P s → ∃ s', next s s')
    (hstep : ∀ s s', I s → ¬ P s → next s s' → I s' ∧ r (μ s') (μ s)) (hs : I s) :
    Inevitable next P s := by
  induction hx : μ s using wf.induction generalizing s with
  | _ x ih =>
    by_cases hp : P s
    · exact .now hp
    · refine .later (hlive s hs hp) fun s' hn => ?_
      obtain ⟨hI, hr⟩ := hstep s s' hs hp hn
      exact ih (μ s') (hx ▸ hr) hI rfl

end Transition
