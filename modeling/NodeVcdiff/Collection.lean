import NodeVcdiff.Transition

/-!
# Collection

Objects that refer to each other, and systems in which a collector may at any step destroy an
object of interest that no root reaches.
-/

namespace Collection

open Transition (Reaches)

/-! ## Reachability -/

section Graph

variable {O : Type*}

/-- An object is reached when it is a root or a reached object refers to it. -/
inductive Reached (root : O → Prop) (refers : O → O → Prop) : O → Prop where
  | root {o : O} : root o → Reached root refers o
  | refers {o p : O} : Reached root refers o → refers o p → Reached root refers p

/-- What contains the roots and is closed under reference contains all that is reached. -/
theorem Reached.of_closed {root P : O → Prop} {refers : O → O → Prop} {o : O}
    (h : Reached root refers o) (hroot : ∀ o, root o → P o)
    (hrefers : ∀ o p, P o → refers o p → P p) : P o := by
  induction h with
  | root h => exact hroot _ h
  | refers _ h ih => exact hrefers _ _ ih h

end Graph

/-! ## Collected systems -/

variable {S A : Type*}

/-- A system, and whether its object of interest was destroyed. -/
structure Collected (S : Type*) where
  subject : S
  destroyed : Bool := false

inductive Act (A : Type*) where
  /-- the system takes a step -/
  | act (a : A)
  /-- the collector destroys the object -/
  | collect
  deriving DecidableEq

/-- The steps: the collector may act when the object is not reached, and nothing happens to the
system any more once it has. -/
def step (next : S → A → Option S) (reached : S → Bool) (c : Collected S) :
    Act A → Option (Collected S)
  | .act a => if c.destroyed then none else (next c.subject a).map fun s => { c with subject := s }
  | .collect =>
    if c.destroyed || reached c.subject then none else some { c with destroyed := true }

variable {next : S → A → Option S} {reached : S → Bool} {c c' : Collected S} {a : A}

theorem step_act (h : step next reached c (.act a) = some c') :
    c.destroyed = false ∧ c'.destroyed = false ∧ next c.subject a = some c'.subject := by
  rw [step] at h
  split at h
  · cases h
  next hd =>
  obtain ⟨s, hs, rfl⟩ := Option.map_eq_some_iff.mp h
  have hfalse : c.destroyed = false := by simpa using hd
  exact ⟨hfalse, hfalse, hs⟩

theorem step_collect (h : step next reached c .collect = some c') :
    reached c.subject = false ∧ c'.subject = c.subject ∧ c'.destroyed = true := by
  rw [step] at h
  split at h
  · cases h
  next hd =>
  obtain rfl := Option.some.inj h
  simp only [Bool.or_eq_true, not_or, Bool.not_eq_true] at hd
  exact ⟨hd.2, rfl, rfl⟩

/-- The steps of the system that satisfy `ok`, and any collection. -/
def Allowed (ok : S → A → Prop) (c : Collected S) : Act A → Prop
  | .act a => ok c.subject a
  | .collect => True

instance {ok : S → A → Prop} [∀ s a, Decidable (ok s a)] (c : Collected S) (a : Act A) :
    Decidable (Allowed ok c a) := by
  cases a <;> unfold Allowed <;> infer_instance

/-- The system runs as it does without a collector, and what was destroyed was not reached. -/
theorem reaches_subject {ok : S → A → Prop} {s₀ : S}
    (h : Reaches (step next reached) (Allowed ok) ⟨s₀, false⟩ c) :
    Reaches next ok s₀ c.subject ∧ (c.destroyed = true → reached c.subject = false) := by
  induction h with
  | refl => exact ⟨.refl, fun h => by cases h⟩
  | @tail c c' a _ hok hs ih =>
    cases a with
    | act a =>
      obtain ⟨-, hd, hnext⟩ := step_act hs
      exact ⟨ih.1.tail hok hnext, fun h => by rw [hd] at h; cases h⟩
    | collect =>
      obtain ⟨hr, heq, -⟩ := step_collect hs
      rw [heq]
      exact ⟨ih.1, fun _ => hr⟩

/-- The collector need not act. -/
theorem reaches_uncollected {ok : S → A → Prop} {s₀ s : S} (h : Reaches next ok s₀ s) :
    Reaches (step next reached) (Allowed ok) ⟨s₀, false⟩ ⟨s, false⟩ := by
  induction h with
  | refl => exact .refl
  | @tail s s' a _ hok hs ih =>
    refine ih.tail (a := .act a) hok ?_
    rw [step, hs]
    rfl

/-- Wherever the system leaves the object unreached, it may be destroyed. -/
theorem exists_destroyed {ok : S → A → Prop} {s₀ s : S} (h : Reaches next ok s₀ s)
    (hr : reached s = false) :
    Reaches (step next reached) (Allowed ok) ⟨s₀, false⟩ ⟨s, true⟩ := by
  refine (reaches_uncollected h).tail (a := .collect) trivial ?_
  rw [step, hr]
  rfl

end Collection
