import NodeVcdiff.Price

/-!
# Runs on their own come to rest

Once the user stops calling, the stream, the worker and a consumer that keeps reading can
take only finitely many steps. What is left when nothing can happen any more is read off the
invariant.
-/

namespace NodeVcdiff

open Transition (Reaches Inevitable)

variable {σ : Type*} {K : Coder σ}

namespace Engine

variable {s s' : Engine σ}

/-- The steps that the stream, the worker and a consumer that keeps reading take. -/
def Act.onItsOwn (s : Engine σ) : Act → Prop
  | .run | .work | .afterShim | .tick | .emitEnd => True
  | .read => s.rs.buffer ≠ []
  | .demand wants => wants = true ∧ s.ws.writing.isSome ∧ s.ts.transforming = false
  | _ => False

def Progress (K : Coder σ) (s s' : Engine σ) : Prop :=
  ∃ a, Act.onItsOwn s a ∧ step K s a = some s'

theorem nearer_work (h : s.Invariant) (h' : s'.Invariant) {w : WorkData}
    (hw : s.ctx.workReq = some w) (hd : s.ctx.workDone = false)
    (hp : s'.pending = s.pending) (ha : s'.around = s.around)
    (hw' : s'.ctx.workReq.isSome) (hd' : s'.ctx.workDone = true) : Nearer s' s := by
  obtain ⟨k, hat⟩ := h.sound.control.native (congrArg Option.isSome hw)
  obtain ⟨k', hat'⟩ := h'.sound.control.native hw'
  have hs := stage_native hat
  have hs' := stage_native hat'
  rw [show s.core.ctx.workDone = false from hd] at hs
  rw [show s'.core.ctx.workDone = true from hd'] at hs'
  refine .inr ⟨hp, ?_⟩
  rw [price_eq, price_eq, hs, hs', ha]
  simp

theorem nearer_demand (h : s.Invariant) (hc : s.calling = none) (hw : s.ws.writing.isSome)
    (ht : s.ts.transforming = false) : Nearer (s.demand true) s := by
  have hstage : s.core.stage = 9 := by
    have hrest : s.core.At .rest := by
      obtain ⟨t, hat⟩ := h.sound.control.turn
      exact hat.rest_of_idle h.sound.control.flags hc hw ht
    obtain ⟨_, hfree, -⟩ := hrest
    simp [Core.stage, show s.core.calling = none from hc, hfree.after, hfree.done, hfree.workReq,
      show s.core.writing.isSome = true from hw, show s.core.transforming = false from ht]
  have hstage' : (s.demand true).core.stage = 8 := by
    rw [core_demand]
    simp [Core.stage, hw, ht]
  refine .inr ⟨rfl, ?_⟩
  rw [price_eq, price_eq, hstage, hstage']
  exact Nat.add_lt_add_right (by decide) _

/-- Every step that needs no user leads nearer to rest. -/
theorem Invariant.nearer (h : s.Invariant) (hp : Progress K s s') : Nearer s' s := by
  obtain ⟨a, hown, hs⟩ := hp
  have h' := h.step hs
  obtain ⟨-, hm⟩ := step_moves hs
  cases hm with
  | @work w ctx calls hw hd hx =>
    obtain ⟨ctx', calls', hp', hdone, -⟩ := h.sound.processShim (K := K) hw hd
    obtain ⟨rfl, rfl⟩ : { ctx' with workDone := true } = ctx ∧ calls' = calls := by
      simpa using hp'.symm.trans hx
    refine nearer_work h h' hw hd rfl rfl ?_ rfl
    exact (congrArg Option.isSome hdone.workReq).trans
      ((congrArg Option.isSome hw).trans rfl)
  | workFail hw hd hx =>
    obtain ⟨ctx, calls, hp', -⟩ := h.sound.processShim (K := K) hw hd
    rw [show s.core.ctx = s.ctx from rfl, hx] at hp'
    cases hp'
  | afterShim hc hst hw hd => exact nearer_afterShim h hc hst hw hd
  | emitEnd _ _ _ he => exact nearer_emitEnd he
  | calling hc => exact nearer_calling h hc
  | frame hc hst => exact nearer_frame h hc hst
  | @tick t ts ht hl =>
    have hpop : ∀ hk : (∀ k, t ≠ .transformCb k),
        ({ s with ticks := ts } : Engine σ).price + 2 = s.price ∧
        ({ s with ticks := ts } : Engine σ).pending = s.pending := fun hk => by
      have hstage : ({ s with ticks := ts } : Engine σ).core.stage = s.core.stage := by
        rw [core_popTick ht hk]
      have ht2 : t.price = 2 := by
        cases t with
        | transformCb k => exact absurd rfl (hk k)
        | _ => rfl
      refine ⟨?_, rfl⟩
      rw [price_eq, price_eq, hstage]
      simp [around, ht, ht2]
      omega
    cases t with
    | transformCb k =>
      exact nearer_settle (h.sound.control.waits (parked_of_tick ht)) h.sound.control.flags (core_popTransformCb ht)
        (by simp [around, ht, Tick.price]) rfl
    | flushCb id =>
      obtain ⟨h1, h2⟩ := hpop (by simp)
      obtain ⟨h3, h4⟩ := price_callUser (s := { s with ticks := ts }) (some id) true
      exact nearer_of_le (by simp only [runTick]; omega) (by simp only [runTick]; omega)
    | writeError callback =>
      obtain ⟨h1, h2⟩ := hpop (by simp)
      obtain ⟨h3, h4⟩ := price_callUser (s := { s with ticks := ts }) callback false
      exact nearer_of_le (by simp only [runTick]; omega) (by simp only [runTick]; omega)
    | closeCb id =>
      obtain ⟨h1, h2⟩ := hpop (by simp)
      obtain ⟨h3, h4⟩ := price_emit (s := { s with ticks := ts }) (.closeCb id)
      exact nearer_of_le (by simp only [runTick]; omega) (by simp only [runTick]; omega)
    | emitClose =>
      obtain ⟨h1, h2⟩ := hpop (by simp)
      obtain ⟨h3, h4⟩ := price_emit (s := { s with ticks := ts }) .closeEvent
      exact nearer_of_le (by simp only [runTick]; omega) (by simp only [runTick]; omega)
  | user a hu hb =>
    cases a with
    | read =>
      refine .inr ⟨rfl, ?_⟩
      have hstage : (s.userCall .read).core.stage = s.core.stage := rfl
      have hpos := List.length_pos_of_ne_nil hown
      rw [price_eq, price_eq, hstage]
      simp only [around, userCall, List.length_nil]
      omega
    | demand wants =>
      obtain ⟨rfl, hw, ht⟩ := hown
      exact nearer_demand h (userPoint_calling hu) hw ht
    | write | flush | endWritable | close => cases hown
    | work | afterShim | tick | emitEnd | run => cases hb

theorem nearer_wellFounded : WellFounded (Nearer (σ := σ)) := by
  have hlex : ∀ s' s : Engine σ, Nearer s' s →
      Prod.Lex (· < ·) (· < ·) (s'.pending, s'.price) (s.pending, s.price) := fun s' s hn => by
    rcases hn with hn | ⟨h1, h2⟩
    · exact .left _ _ hn
    · rw [h1]; exact .right _ h2
  exact Subrelation.wf (hlex _ _)
    (InvImage.wf (fun s : Engine σ => (s.pending, s.price)) (Prod.lex Nat.lt_wfRel Nat.lt_wfRel).wf)

/-! ## Where runs end -/

/-- Nothing can happen any more without the user. -/
structure Quiescent (s : Engine σ) : Prop where
  calling : s.calling = none
  stack : s.stack = []
  ticks : s.ticks = []
  workReq : s.ctx.workReq = none
  buffer : s.rs.buffer = []
  ended : s.rs.ended = true → s.rs.endEmitted = true
  writing : s.ws.writing.isSome → s.ts.transforming = true

/-- A state that is not quiescent has a step of its own. -/
theorem Invariant.progress (h : s.Invariant) (hq : ¬ s.Quiescent) : ∃ s', Progress K s s' := by
  have hfault : s.fault = none := h.sound.control.flags.fault
  have hnf : s.fault.isSome = false := by rw [hfault]; rfl
  by_contra hno
  have stuck : ∀ a, Act.onItsOwn s a → Engine.step K s a = none := fun a ha => by
    by_contra hs
    obtain ⟨s', hs'⟩ := Option.ne_none_iff_exists'.mp hs
    exact hno ⟨s', a, ha, hs'⟩
  have hrun := stuck .run trivial
  have hidle : s.calling = none ∧ s.stack = [] := by
    simp only [Engine.step, hnf, Bool.false_eq_true, if_false] at hrun
    split at hrun
    · cases hrun
    · cases hrun
    · next hc hst => exact ⟨hc, hst⟩
  obtain ⟨hc, hst⟩ := hidle
  have hloop : s.atLoop = true := by simp [atLoop, hc, hst]
  have hpoint : s.userPoint = true := by simp [userPoint, hloop]
  refine hq ⟨hc, hst, ?_, ?_, ?_, ?_, ?_⟩
  · have ht := stuck .tick trivial
    simp only [Engine.step, hnf, Bool.false_eq_true, if_false, hloop, if_true] at ht
    split at ht
    · cases ht
    · next htk => exact htk
  · by_contra hw
    obtain ⟨w, hw⟩ := Option.ne_none_iff_exists'.mp hw
    cases hd : s.ctx.workDone with
    | false =>
      have hwork := stuck .work trivial
      simp only [Engine.step, hnf, Bool.false_eq_true, if_false, hw, hd] at hwork
      split at hwork <;> cases hwork
    | true =>
      have hshim := stuck .afterShim trivial
      simp [Engine.step, hnf, hc, hst, hw, hd] at hshim
  · by_contra hb
    have hread := stuck .read hb
    simp [Engine.step, hnf, hpoint] at hread
  · intro he
    by_contra hem
    have hb : s.rs.buffer = [] := by
      by_contra hb
      have hread := stuck .read hb
      simp [Engine.step, hnf, hpoint] at hread
    have hend := stuck .emitEnd trivial
    simp [Engine.step, hnf, hloop, he, hb, hem] at hend
  · intro hw
    by_contra ht
    have hdemand := stuck (.demand true) ⟨rfl, hw, by simpa using ht⟩
    simp [Engine.step, hnf, hpoint] at hdemand

/-- Left to itself, a stream comes to rest, and it gets there by steps of its own. -/
theorem Invariant.comes_to_rest (h : s.Invariant) :
    Inevitable (Progress K)
      (fun t => t.Quiescent ∧ t.Invariant ∧ Reaches (Engine.step K) Act.onItsOwn s t) s := by
  refine Inevitable.of_measure nearer_wellFounded id
    (I := fun t => t.Invariant ∧ Reaches (Engine.step K) Act.onItsOwn s t) ?_ ?_ ⟨h, .refl⟩
  · exact fun t ht hn => ht.1.progress fun hq => hn ⟨hq, ht⟩
  · rintro t t' ⟨hi, hr⟩ - hp
    obtain ⟨a, ha, hs⟩ := hp
    exact ⟨⟨hi.step hs, hr.tail ha hs⟩, hi.nearer ⟨a, ha, hs⟩⟩

/-- At rest no call is in progress, unless its callback was lost to an error. -/
theorem Quiescent.turn (hq : s.Quiescent) (h : s.Invariant) :
    s.core.At .rest ∧ s.ws.writing = none ∨ ∃ k, s.core.At (.lost k) := by
  have hc : s.core.calling = none := hq.calling
  have hpark : ∀ k, s.core.parked k = 0 := fun k => by simp [core_parked, hq.ticks, hq.stack]
  obtain ⟨t, hat⟩ := h.sound.control.turn
  cases t with
  | rest =>
    left
    refine ⟨hat, ?_⟩
    by_contra hw
    have := hq.writing (Option.isSome_iff_ne_none.mpr hw)
    have hidle : s.ts.transforming = false := hat.2.2.1
    rw [hidle] at this
    cases this
  | called call => rw [hat.1] at hc; cases hc
  | parked k =>
    have := hpark k
    cases k
    · exact absurd (hat.2.1.symm.trans this) (by simp)
    · exact absurd (hat.2.2.1.symm.trans this) (by simp)
  | native k =>
    have hn : s.core.ctx.workReq = none := hq.workReq
    have := hat.2.2.2.1
    rw [hn] at this
    cases this
  | lost k => exact .inr ⟨k, hat⟩

end Engine

end NodeVcdiff
