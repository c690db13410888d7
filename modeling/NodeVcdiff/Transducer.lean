import Mathlib.Data.List.Basic

/-!
# Chunked transducers

A transducer is started, fed chunk by chunk and finished. Each step appends output or fails,
and the first failure decides the outcome. The question is how much of the chunking shows.
-/

namespace Transducer

section Pieces

variable {γ : Type*} {d : List γ} {bs : List (List γ)}

/-- What is put together from copies of `d` and is not longer than `d`. -/
theorem flatten_whole (h : ∀ b ∈ bs, b = [] ∨ b = d) (hlen : bs.flatten.length ≤ d.length) :
    bs.flatten = [] ∨ bs.flatten = d := by
  induction bs with
  | nil => exact .inl rfl
  | cons b bs ih =>
    rcases h b List.mem_cons_self with rfl | rfl
    · exact ih (fun c hc => h c (List.mem_cons_of_mem _ hc)) hlen
    · have hnil : bs.flatten = [] := by
        rw [List.flatten_cons, List.length_append] at hlen
        exact List.eq_nil_of_length_eq_zero (by omega)
      exact .inr (by rw [List.flatten_cons, hnil, List.append_nil])

/-- Cutting `d` without breaking it leaves `d` and empty pieces. -/
theorem filter_whole (h : ∀ b ∈ bs, b = [] ∨ b = d) (hflat : bs.flatten = d) :
    bs.filter (fun b => !b.isEmpty) = [d].filter fun b => !b.isEmpty := by
  have hnil : ∀ cs : List (List γ), cs.flatten = [] → cs.filter (fun b => !b.isEmpty) = [] := by
    intro cs hcs
    rw [List.filter_eq_nil_iff]
    intro b hb
    simp [List.flatten_eq_nil_iff.mp hcs b hb]
  by_cases hd : d = []
  · subst hd
    rw [hnil bs hflat, hnil [[]] rfl]
  · induction bs with
    | nil => exact absurd hflat.symm hd
    | cons b bs ih =>
      rcases h b List.mem_cons_self with rfl | rfl
      · rw [List.filter_cons_of_neg (by simp)]
        exact ih (fun c hc => h c (List.mem_cons_of_mem _ hc)) hflat
      · have hrest : bs.flatten = [] := by simpa using hflat
        rw [List.filter_cons, hnil bs hrest, List.filter_cons, List.filter_nil]

end Pieces

/-- A transducer with states `σ`, chunks `α`, output symbols `β` and errors `ε`. -/
structure Machine (σ α β ε : Type*) where
  start : σ → Except ε (List β × σ)
  feed : σ → α → Except ε (List β × σ)
  finish : σ → Except ε (List β × σ)

namespace Machine

variable {σ α β ε : Type*} (M : Machine σ α β ε)

/-- Feed the chunks to a started transducer and finish it. -/
def runFrom : σ → List α → Except ε (List β)
  | x, [] => (M.finish x).map Prod.fst
  | x, d :: ds => (M.feed x d).bind fun p => (runFrom p.2 ds).map (p.1 ++ ·)

/-- The total output on a list of chunks, or the first error. -/
def run (x : σ) (ds : List α) : Except ε (List β) :=
  (M.start x).bind fun p => (M.runFrom p.2 ds).map (p.1 ++ ·)

/-- The states in which a transducer started in `x` can be fed. -/
inductive Live (x : σ) : σ → Prop where
  | start {o : List β} {y : σ} : M.start x = .ok (o, y) → Live x y
  | feed {y z : σ} {d : α} {o : List β} : Live x y → M.feed y d = .ok (o, z) → Live x z

/-- No list of chunks tells the two states apart. -/
def Alike (y z : σ) : Prop := ∀ ds, M.runFrom y ds = M.runFrom z ds

/-- Feeding `d` succeeds, produces nothing and changes nothing observable. -/
def Ignores (y : σ) (d : α) : Prop := ∃ z, M.feed y d = .ok ([], z) ∧ M.Alike z y

variable {M} {x y : σ} {ds es : List α}

theorem run_of_start {o : List β} (h : M.start x = .ok (o, y)) :
    M.run x ds = (M.runFrom y ds).map (o ++ ·) := by
  rw [run, h]; rfl

theorem runFrom_of_feed {d : α} {o : List β} (h : M.feed x d = .ok (o, y)) :
    M.runFrom x (d :: ds) = (M.runFrom y ds).map (o ++ ·) := by
  rw [runFrom, h]; rfl

/-- What is put in front of an outcome. -/
theorem map_append (r : Except ε (List β)) (o p : List β) :
    (r.map (p ++ ·)).map (o ++ ·) = r.map (o ++ p ++ ·) := by
  cases r with
  | error e => rfl
  | ok q => exact congrArg Except.ok (List.append_assoc o p q).symm

theorem runFrom_ignored {d : α} (h : M.Ignores y d) : M.runFrom y (d :: ds) = M.runFrom y ds := by
  obtain ⟨z, hz, halike⟩ := h
  rw [runFrom_of_feed hz, ← halike ds]
  cases M.runFrom z ds <;> rfl

/-- Ignored chunks can be left out. -/
theorem runFrom_filter {p : α → Bool} (h : ∀ y, M.Live x y → ∀ d, p d = false → M.Ignores y d)
    (hy : M.Live x y) (ds : List α) : M.runFrom y (ds.filter p) = M.runFrom y ds := by
  induction ds generalizing y with
  | nil => rfl
  | cons d ds ih =>
    cases hp : p d with
    | false =>
      rw [List.filter_cons_of_neg (by simp [hp]), ih hy, runFrom_ignored (h y hy d hp)]
    | true =>
      rw [List.filter_cons_of_pos hp, runFrom, runFrom]
      cases hf : M.feed y d with
      | error e => rfl
      | ok q => simp only [Except.bind, ih (hy.feed hf)]

theorem run_filter {p : α → Bool} (h : ∀ y, M.Live x y → ∀ d, p d = false → M.Ignores y d)
    (ds : List α) : M.run x (ds.filter p) = M.run x ds := by
  unfold run
  cases hs : M.start x with
  | error e => rfl
  | ok q => simp only [Except.bind, runFrom_filter h (.start hs)]

/-- Lists of chunks that differ in ignored chunks only have the same outcome. -/
theorem run_congr {p : α → Bool} (h : ∀ y, M.Live x y → ∀ d, p d = false → M.Ignores y d)
    (heq : ds.filter p = es.filter p) : M.run x ds = M.run x es := by
  rw [← run_filter h ds, heq, run_filter h es]

/-- What succeeds in `M` succeeds in `N`, with the same output. -/
structure Within {ε' : Type*} (M : Machine σ α β ε) (N : Machine σ α β ε') : Prop where
  start : ∀ x p, M.start x = .ok p → N.start x = .ok p
  feed : ∀ x d p, M.feed x d = .ok p → N.feed x d = .ok p
  finish : ∀ x p, M.finish x = .ok p → N.finish x = .ok p

theorem Within.runFrom {ε' : Type*} {N : Machine σ α β ε'} (h : M.Within N) {out : List β}
    (hout : M.runFrom x ds = .ok out) : N.runFrom x ds = .ok out := by
  induction ds generalizing x out with
  | nil =>
    cases hf : M.finish x with
    | error e => rw [Machine.runFrom, hf] at hout; cases hout
    | ok p =>
      rw [Machine.runFrom, hf] at hout
      rw [Machine.runFrom, h.finish x p hf]
      exact congrArg Except.ok (Except.ok.inj hout)
  | cons d ds ih =>
    cases hf : M.feed x d with
    | error e => rw [Machine.runFrom, hf] at hout; cases hout
    | ok p =>
      rw [runFrom_of_feed (o := p.1) (y := p.2) hf] at hout
      rw [runFrom_of_feed (o := p.1) (y := p.2) (h.feed x d p hf)]
      cases hr : M.runFrom p.2 ds with
      | error e => rw [hr] at hout; cases hout
      | ok o =>
        rw [hr] at hout
        rw [ih hr]
        exact congrArg Except.ok (Except.ok.inj hout)

theorem Within.run {ε' : Type*} {N : Machine σ α β ε'} (h : M.Within N) {out : List β}
    (hout : M.run x ds = .ok out) : N.run x ds = .ok out := by
  cases hs : M.start x with
  | error e => rw [Machine.run, hs] at hout; cases hout
  | ok p =>
    rw [run_of_start (o := p.1) (y := p.2) hs] at hout
    rw [run_of_start (o := p.1) (y := p.2) (h.start x p hs)]
    cases hr : M.runFrom p.2 ds with
    | error e => rw [hr] at hout; cases hout
    | ok o =>
      rw [hr] at hout
      rw [h.runFrom hr]
      exact congrArg Except.ok (Except.ok.inj hout)

/-- The verdict and the total output do not depend on how the input is cut into pieces. -/
def Seamless {γ : Type*} (M : Machine σ (List γ) β ε) (x : σ) : Prop :=
  ∀ ds es : List (List γ), [] ∉ ds → [] ∉ es → ds.flatten = es.flatten →
    (M.run x ds).toOption = (M.run x es).toOption

/-- When empty pieces are ignored they may be among the pieces. -/
theorem Seamless.run_eq {γ : Type*} {M : Machine σ (List γ) β ε} (h : M.Seamless x)
    (hI : ∀ y, M.Live x y → M.Ignores y []) {ds es : List (List γ)}
    (heq : ds.flatten = es.flatten) : (M.run x ds).toOption = (M.run x es).toOption := by
  have hp : ∀ y, M.Live x y → ∀ d : List γ, (!d.isEmpty) = false → M.Ignores y d := by
    intro y hy d hd
    obtain rfl : d = [] := by simpa using hd
    exact hI y hy
  rw [← run_filter hp ds, ← run_filter hp es]
  exact h _ _ (by simp) (by simp) (by simpa only [List.flatten_filter_not_isEmpty] using heq)

end Machine

end Transducer
