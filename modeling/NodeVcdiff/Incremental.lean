import Mathlib.Data.List.Basic

/-!
# Incremental parsers

A parser is given the data that has arrived. It finds a value and leaves the data after it, or
an error, or the end of the data. A parser that is stable may be called again when more data
has arrived: what it found before is what it finds now.
-/

namespace Incremental

universe u v

variable {β : Type v} {α γ : Type u}

/-- What a parser finds. -/
inductive Parsed (β α : Type*) where
  | success (a : α) (rest : List β)
  | error
  | endOfData
  deriving DecidableEq, Repr

/-- A parser of symbols `β`. -/
def Parser (β α : Type*) := List β → Parsed β α

namespace Parsed

/-- Go on with the value and the data after it. -/
def bind (x : Parsed β α) (f : α → Parser β γ) : Parsed β γ :=
  match x with
  | success a rest => f a rest
  | error => error
  | endOfData => endOfData

/-- The same finding in front of more data. -/
def extend (x : Parsed β α) (more : List β) : Parsed β α :=
  match x with
  | success a rest => success a (rest ++ more)
  | error => error
  | endOfData => endOfData

@[simp] theorem extend_success (a : α) (rest more : List β) :
    (success a rest).extend more = success a (rest ++ more) := rfl

@[simp] theorem extend_error (more : List β) : (error : Parsed β α).extend more = error := rfl

@[simp] theorem bind_success (a : α) (rest : List β) (f : α → Parser β γ) :
    (success a rest).bind f = f a rest := rfl

@[simp] theorem bind_error (f : α → Parser β γ) : (error : Parsed β α).bind f = error := rfl

@[simp] theorem bind_endOfData (f : α → Parser β γ) :
    (endOfData : Parsed β α).bind f = endOfData := rfl

end Parsed

namespace Parser

instance : Monad (Parser β) where
  pure a := fun d => .success a d
  bind p f := fun d => (p d).bind f

@[simp] theorem pure_apply (a : α) (d : List β) : (pure a : Parser β α) d = .success a d := rfl

@[simp] theorem bind_apply (p : Parser β α) (f : α → Parser β γ) (d : List β) :
    (p >>= f) d = (p d).bind f := rfl

/-- The parser that finds an error. -/
def fail : Parser β α := fun _ => .error

@[simp] theorem fail_apply (d : List β) : (fail : Parser β α) d = .error := rfl

/-- An error unless `c` holds. -/
def check (c : Prop) [Decidable c] : Parser β Unit := if c then pure () else fail

/-- One symbol. -/
def next : Parser β β
  | [] => .endOfData
  | b :: rest => .success b rest

/-- A value and how many symbols were read of it. -/
def counted (p : Parser β α) : Parser β (α × ℕ) := fun d =>
  match p d with
  | .success a rest => .success (a, d.length - rest.length) rest
  | .error => .error
  | .endOfData => .endOfData

/-- What is found in the data that has arrived is found when there is more. -/
def Stable (p : Parser β α) : Prop := ∀ d e, p d ≠ .endOfData → p (d ++ e) = (p d).extend e

/-- What is found in the data that has arrived is found when there is more, unless that is an
error. -/
def Resumable (p : Parser β α) : Prop :=
  ∀ d e, p (d ++ e) ≠ .error → p d ≠ .endOfData → p (d ++ e) = (p d).extend e

/-- The parser reads `used` as `a`, whatever comes after it. -/
def Reads (p : Parser β α) (used : List β) (a : α) : Prop :=
  ∀ rest, p (used ++ rest) = .success a rest

/-- What a parser leaves is the end of what it was given. -/
def Leaves (p : Parser β α) : Prop := ∀ d a rest, p d = .success a rest → rest <:+ d

/-- A parser that succeeds has read something. -/
def Consumes (p : Parser β α) : Prop := ∀ d a rest, p d = .success a rest → rest.length < d.length

section Stability

variable {p : Parser β α} {f : α → Parser β γ}

theorem Stable.resumable (h : p.Stable) : p.Resumable := fun d e _ he => h d e he

theorem stable_pure (a : α) : (pure a : Parser β α).Stable := fun _ _ _ => rfl

theorem stable_fail : (fail : Parser β α).Stable := fun _ _ _ => rfl

theorem stable_check (c : Prop) [Decidable c] : (check c : Parser β Unit).Stable := by
  unfold check
  split
  · exact stable_pure ()
  · exact stable_fail

theorem stable_next : (next : Parser β β).Stable := by
  intro d e h
  cases d with
  | nil => exact absurd rfl h
  | cons b d => rfl

theorem Stable.bind (hp : p.Stable) (hf : ∀ a, (f a).Stable) : (p >>= f).Stable := by
  intro d e h
  rw [bind_apply] at h
  simp only [bind_apply]
  cases hd : p d with
  | success a rest =>
    rw [hd] at h
    rw [hp d e (by rw [hd]; intro hc; cases hc), hd]
    exact hf a rest e h
  | error =>
    rw [hp d e (by rw [hd]; intro hc; cases hc), hd]
    rfl
  | endOfData => rw [hd] at h; exact absurd rfl h

theorem Stable.ite {c : Prop} [Decidable c] {p q : Parser β α} (hp : p.Stable) (hq : q.Stable) :
    (if c then p else q).Stable := by
  split
  · exact hp
  · exact hq

theorem Stable.counted (hp : p.Stable) : p.counted.Stable := by
  intro d e h
  unfold Parser.counted at h ⊢
  cases hd : p d with
  | success a rest =>
    rw [hp d e (by rw [hd]; intro hc; cases hc), hd]
    simp only [Parsed.extend_success, List.length_append, Nat.add_sub_add_right]
  | error =>
    rw [hp d e (by rw [hd]; intro hc; cases hc), hd]
    rfl
  | endOfData => rw [hd] at h; exact absurd rfl h

theorem Resumable.bind (hp : p.Resumable) (hf : ∀ a, (f a).Resumable) : (p >>= f).Resumable := by
  intro d e hne h
  rw [bind_apply] at h hne
  simp only [bind_apply]
  have hpe : p (d ++ e) ≠ .error := by
    intro hc
    rw [hc] at hne
    exact hne rfl
  cases hd : p d with
  | success a rest =>
    have hext := hp d e hpe (by rw [hd]; intro hc; cases hc)
    rw [hd] at h hext
    rw [hext] at hne ⊢
    exact hf a rest e hne h
  | error =>
    rw [hp d e hpe (by rw [hd]; intro hc; cases hc), hd]
    rfl
  | endOfData => rw [hd] at h; exact absurd rfl h

end Stability

section Reading

variable {p : Parser β α} {f : α → Parser β γ} {used more : List β} {a : α} {c : γ}

theorem reads_pure (a : α) : (pure a : Parser β α).Reads [] a := fun _ => rfl

theorem reads_next (b : β) : (next : Parser β β).Reads [b] b := fun _ => rfl

theorem reads_check {c : Prop} [Decidable c] (h : c) : (check c : Parser β Unit).Reads [] () := by
  rw [check, if_pos h]
  exact reads_pure ()

theorem Reads.bind (hp : p.Reads used a) (hf : (f a).Reads more c) :
    (p >>= f).Reads (used ++ more) c := by
  intro rest
  rw [bind_apply, List.append_assoc, hp]
  exact hf rest

theorem Reads.bind_nil (hp : p.Reads [] a) (hf : (f a).Reads used c) : (p >>= f).Reads used c :=
  hp.bind hf

theorem Reads.counted (hp : p.Reads used a) : p.counted.Reads used (a, used.length) := by
  intro rest
  unfold Parser.counted
  rw [hp rest]
  simp only [List.length_append, Nat.add_sub_cancel]

/-- A stable parser asks for more until it has everything it reads. -/
theorem Reads.endOfData (hp : p.Reads used a) (hs : p.Stable) {d e : List β}
    (h : d ++ e = used) (he : e ≠ []) : p d = .endOfData := by
  by_contra hne
  have hfull : p (d ++ e) = .success a [] := by
    rw [h, ← List.append_nil used]
    exact hp []
  have hext := (hs d e hne).symm.trans hfull
  cases hd : p d with
  | success b rest =>
    rw [hd, Parsed.extend_success] at hext
    exact he (List.append_eq_nil_iff.mp (Parsed.success.inj hext).2).2
  | error => rw [hd] at hext; cases hext
  | endOfData => exact hne hd

end Reading

section Leaving

variable {p : Parser β α} {f : α → Parser β γ}

theorem leaves_pure (a : α) : (pure a : Parser β α).Leaves := by
  rintro d b rest h
  cases h
  exact List.suffix_refl d

theorem leaves_check (c : Prop) [Decidable c] : (check c : Parser β Unit).Leaves := by
  intro d a rest h
  unfold check at h
  split at h
  · exact leaves_pure () d a rest h
  · cases h

theorem leaves_next : (next : Parser β β).Leaves := by
  intro d b rest h
  cases d with
  | nil => cases h
  | cons c d => cases h; exact List.suffix_cons _ _

theorem Leaves.counted (hp : p.Leaves) : p.counted.Leaves := by
  intro d a rest h
  unfold Parser.counted at h
  cases hd : p d with
  | success b r => rw [hd] at h; cases h; exact hp d b rest hd
  | error => rw [hd] at h; cases h
  | endOfData => rw [hd] at h; cases h

theorem Leaves.ite {c : Prop} [Decidable c] {p q : Parser β α} (hp : p.Leaves) (hq : q.Leaves) :
    (if c then p else q).Leaves := by
  split
  · exact hp
  · exact hq

theorem leaves_fail : (fail : Parser β α).Leaves := fun _ _ _ h => by cases h

theorem Leaves.bind (hp : p.Leaves) (hf : ∀ a, (f a).Leaves) : (p >>= f).Leaves := by
  intro d c rest h
  rw [bind_apply] at h
  cases hd : p d with
  | success a mid => rw [hd] at h; exact (hf a mid c rest h).trans (hp d a mid hd)
  | error => rw [hd] at h; cases h
  | endOfData => rw [hd] at h; cases h

theorem consumes_next : (next : Parser β β).Consumes := by
  intro d b rest h
  cases d with
  | nil => cases h
  | cons c d => cases h; exact Nat.lt_succ_self _

theorem Consumes.bind (hp : p.Consumes) (hf : ∀ a, (f a).Leaves) : (p >>= f).Consumes := by
  intro d c rest h
  rw [bind_apply] at h
  cases hd : p d with
  | success a mid =>
    rw [hd] at h
    exact Nat.lt_of_le_of_lt (hf a mid c rest h).length_le (hp d a mid hd)
  | error => rw [hd] at h; cases h
  | endOfData => rw [hd] at h; cases h

end Leaving

end Parser

/-! ## A machine fed in pieces -/

section Machine

variable {σ : Type*} (step : σ → Parser β (σ × List γ))

/-- From `s` on the data `d`, steps are taken until one runs out of data. They put out `out` and
leave the machine in `t` before `rest`. -/
inductive Runs : σ → List β → List γ → σ → List β → Prop
  | wait {s : σ} {d : List β} : step s d = .endOfData → Runs s d [] s d
  | step {s s' t : σ} {d d' rest : List β} {o out : List γ} :
      step s d = .success (s', o) d' → Runs s' d' out t rest → Runs s d (o ++ out) t rest

/-- The machine is given piece after piece, each with what was left of the ones before. -/
inductive Feeds : σ → List β → List (List β) → List γ → σ → List β → Prop
  | done {s : σ} {held : List β} : Feeds s held [] [] s held
  | piece {s s' t : σ} {held held' rest d : List β} {ds : List (List β)} {o out : List γ} :
      Runs step s (held ++ d) o s' held' → Feeds s' held' ds out t rest →
      Feeds s held (d :: ds) (o ++ out) t rest

variable {step} {s t u : σ} {d e rest rest' : List β} {out out' : List γ}

/-- A run is determined by where it starts. -/
theorem Runs.unique (h : Runs step s d out t rest) (h' : Runs step s d out' u rest') :
    out = out' ∧ t = u ∧ rest = rest' := by
  induction h generalizing out' with
  | wait hw =>
    cases h' with
    | wait _ => exact ⟨rfl, rfl, rfl⟩
    | step hs _ => rw [hw] at hs; cases hs
  | step hs _ ih =>
    cases h' with
    | wait hw => rw [hs] at hw; cases hw
    | step hs' h' =>
      rw [hs] at hs'
      obtain ⟨heq, rfl⟩ := Parsed.success.inj hs'
      obtain ⟨rfl, rfl⟩ := Prod.mk.inj heq
      obtain ⟨rfl, rfl, rfl⟩ := ih h'
      exact ⟨rfl, rfl, rfl⟩

/-- A run ends where a step runs out of data. -/
theorem Runs.waits (h : Runs step s d out t rest) : step t rest = .endOfData := by
  induction h with
  | wait hw => exact hw
  | step _ _ ih => exact ih

/-- A run over all the data can be interrupted where only part of the data has arrived. -/
theorem Runs.split (hstep : ∀ s, (step s).Resumable) (h : Runs step s (d ++ e) out t rest) :
    ∃ out₁ mid held out₂, Runs step s d out₁ mid held ∧ Runs step mid (held ++ e) out₂ t rest ∧
      out = out₁ ++ out₂ := by
  generalize hde : d ++ e = de at h
  induction h generalizing d with
  | @wait s _ hw =>
    subst hde
    have hd : step s d = .endOfData := by
      by_contra hne
      have hext := hstep s d e (by rw [hw]; intro hc; cases hc) hne
      rw [hw] at hext
      cases hd : step s d with
      | success a r => rw [hd] at hext; cases hext
      | error => rw [hd] at hext; cases hext
      | endOfData => exact hne hd
    exact ⟨[], s, d, [], .wait hd, .wait hw, rfl⟩
  | @step s s' t _ d' rest o out hs hrun ih =>
    subst hde
    by_cases hd : step s d = .endOfData
    · exact ⟨[], s, d, o ++ out, .wait hd, .step hs hrun, rfl⟩
    · have hext := hstep s d e (by rw [hs]; intro hc; cases hc) hd
      rw [hs] at hext
      cases hsd : step s d with
      | success a r =>
        rw [hsd, Parsed.extend_success] at hext
        obtain ⟨rfl, hr⟩ := Parsed.success.inj hext
        obtain ⟨out₁, mid, held, out₂, h₁, h₂, rfl⟩ := ih hr.symm
        exact ⟨o ++ out₁, mid, held, out₂, .step hsd h₁, h₂, (List.append_assoc _ _ _).symm⟩
      | error => rw [hsd] at hext; cases hext
      | endOfData => exact absurd hsd hd

/-- What is run in one piece is run in any pieces. -/
theorem Runs.feeds (hstep : ∀ s, (step s).Resumable) {held : List β} {ds : List (List β)}
    (h : Runs step s (held ++ ds.flatten) out t rest) (hheld : step s held = .endOfData) :
    Feeds step s held ds out t rest := by
  induction ds generalizing s held out with
  | nil =>
    rw [List.flatten_nil, List.append_nil] at h
    obtain ⟨rfl, rfl, rfl⟩ := h.unique (.wait hheld)
    exact .done
  | cons d ds ih =>
    rw [List.flatten_cons, ← List.append_assoc] at h
    obtain ⟨out₁, mid, held', out₂, h₁, h₂, rfl⟩ := h.split hstep
    exact .piece h₁ (ih h₂ h₁.waits)

/-- Two runs, the second over what the first one left and more data, are a run. -/
theorem Runs.append (hstep : ∀ s, (step s).Stable) {mid : σ} {held : List β}
    (h₁ : Runs step s d out mid held) (h₂ : Runs step mid (held ++ e) out' t rest) :
    Runs step s (d ++ e) (out ++ out') t rest := by
  induction h₁ with
  | wait _ => exact h₂
  | @step s s' _ d d' _ o out hs _ ih =>
    have hext := hstep s d e (by rw [hs]; intro hc; cases hc)
    rw [hs, Parsed.extend_success] at hext
    rw [List.append_assoc]
    exact .step hext (ih h₂)

end Machine

end Incremental
