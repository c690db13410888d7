import NodeVcdiff.Callbacks
import NodeVcdiff.Failures

/-!
# Completions are matched to their writes

The numbered stream keeps a ledger: where its callbacks are tells how far the last call is.
-/

namespace NodeVcdiff

open Script (Number)
open Ledger (Mark Phase Kept)
open Transition (Reaches anyStep Inevitable)
open Engine (step_moves copyCoder)

namespace Numbered

variable {σ : Type*} {K : Coder σ} {t t' : Numbered σ} {a : Engine.Act} {s : Engine σ} {p : Phase}

/-- What the stream does that a mark tells of. -/
def deed : Mark Buffer → Option Deed
  | .installed _ => some .write
  | .pushed _ out => some (.push out)
  | .failed _ => some .fail
  | .answered _ ok => some (.answer ok)
  | .called _ | .invoked _ => none

def deeds (t : Numbered σ) : List Deed := t.trace.filterMap deed

/-- The callback of the last call is where its phase says, and carries its number. -/
def Placed (t : Numbered σ) : Phase → Prop
  | .idle => (∃ r, t.engine.places = ⟨[], [], r, false, false, t.deeds⟩) ∧
      t.ticks = [] ∧ t.frames = []
  | .taken => (∃ k r, t.engine.places = ⟨[k], [], r, false, false, t.deeds⟩) ∧
      t.ticks = [t.calls - 1] ∧ t.frames = []
  | .installed => t.engine.places = ⟨[], [], true, true, false, t.deeds⟩ ∧
      t.request = some (t.calls - 1) ∧ t.ticks = [] ∧ t.frames = []
  | .delivered => (∃ k r, t.engine.places = ⟨[], [k], r, false, false, t.deeds⟩) ∧
      t.ticks = [] ∧ t.frames = [t.calls - 1]
  | .broken => (∃ r, t.engine.places = ⟨[], [], r, false, true, t.deeds⟩) ∧
      t.ticks = [] ∧ t.frames = []

/-- A step that moves no callback. -/
theorem Placed.congr (h : t.Placed p) (hs : s.places = t.engine.places) :
    ({ t with engine := s } : Numbered σ).Placed p := by
  cases p <;> simpa only [Placed, hs, deeds] using h

theorem Placed.taken (h : t.Placed p) (hp : t.engine.places.ticks ≠ []) : p = .taken := by
  cases p with
  | taken => rfl
  | installed => simp [h.1] at hp
  | delivered => obtain ⟨⟨k, r, hr⟩, -⟩ := h; simp [hr] at hp
  | _ => obtain ⟨⟨r, hr⟩, -⟩ := h; simp [hr] at hp

theorem Placed.delivered (h : t.Placed p) (hp : t.engine.places.frames ≠ []) :
    p = .delivered := by
  cases p with
  | delivered => rfl
  | installed => simp [h.1] at hp
  | taken => obtain ⟨⟨k, r, hr⟩, -⟩ := h; simp [hr] at hp
  | _ => obtain ⟨⟨r, hr⟩, -⟩ := h; simp [hr] at hp

theorem Placed.installed (h : t.Placed p) (hp : t.engine.places.inFlight = true) :
    p = .installed := by
  cases p with
  | installed => rfl
  | taken | delivered => obtain ⟨⟨k, r, hr⟩, -⟩ := h; simp [hr] at hp
  | _ => obtain ⟨⟨r, hr⟩, -⟩ := h; simp [hr] at hp

theorem parked_of_places {k : TransformCb} (hk : k ∈ s.places.ticks ∨ k ∈ s.places.frames) :
    0 < s.core.parked k := by
  have htick : ∀ t : Tick, t.waiting = some k → t = .transformCb k := by
    rintro (k' | _ | _ | _ | _) ht <;> simp_all [Tick.waiting]
  have hframe : ∀ f : Frame, f.waiting = some k → f = .cb k := by
    intro f hf
    cases f <;> simp_all [Frame.waiting]
  rw [Engine.core_parked]
  rcases hk with hk | hk
  · obtain ⟨t, ht, hw⟩ := List.mem_filterMap.mp hk
    have := List.count_pos_iff.mpr (htick t hw ▸ ht)
    omega
  · obtain ⟨f, hf, hw⟩ := List.mem_filterMap.mp hk
    have := List.count_pos_iff.mpr (hframe f hw ▸ hf)
    omega

/-- When a call is due, nothing waits. -/
theorem Placed.idle (h : t.Placed p) {call : Calling} (hat : t.engine.core.At (.called call)) :
    p = .idle := by
  obtain ⟨-, hfree, -, hh, -⟩ := hat
  cases p with
  | idle => rfl
  | taken =>
    obtain ⟨⟨k, r, hr⟩, -⟩ := h
    have := parked_of_places (k := k) (s := t.engine) (.inl (by simp [hr]))
    rw [hfree.parked] at this
    omega
  | delivered =>
    obtain ⟨⟨k, r, hr⟩, -⟩ := h
    have := parked_of_places (k := k) (s := t.engine) (.inr (by simp [hr]))
    rw [hfree.parked] at this
    omega
  | installed =>
    have hw : t.engine.places.inFlight = true := by rw [h.1]
    have hnone : t.engine.ctx.workReq = none := hfree.workReq
    simp [Engine.places, hnone] at hw
  | broken =>
    obtain ⟨⟨r, hr⟩, -⟩ := h
    have hw : t.engine.places.hadError = true := by rw [hr]
    have hno : t.engine.vcd.hadError = false := hh
    simp [Engine.places, hno] at hw

/-- The ledger is kept, and the callback of the last call is in its place. -/
def Tracked (t : Numbered σ) : Prop := ∃ p, Kept t.calls p t.trace ∧ t.Placed p

theorem Tracked.congr (h : t.Tracked) (hs : s.places = t.engine.places) :
    ({ t with engine := s } : Numbered σ).Tracked := by
  obtain ⟨p, hk, hp⟩ := h
  exact ⟨p, hk, hp.congr hs⟩

theorem Tracked.call (h : t.Tracked) (hi : t.engine.Invariant) {c : Calling}
    (hc : t.engine.calling = some c) (hf : (t.engine.runCalling c).fault = none) :
    (t.call (t.engine.runCalling c)).Tracked := by
  have hat := hi.sound.control.called (show t.engine.core.calling = some c from hc)
  obtain ⟨p, hk, hp⟩ := h
  obtain rfl := hp.idle hat
  obtain ⟨⟨r, hr⟩, h1, h2⟩ := hp
  have hcalled := hk.call
  have hw : c ≠ .flush → t.engine.ws.writing.isSome := by
    intro hne
    cases c with
    | transform sync => exact hat.2.2.2.2.2
    | flush => exact absurd rfl hne
  unfold Numbered.call
  dsimp only
  cases hcl : t.engine.vcd.closed with
  | true =>
    rw [if_pos rfl]
    refine ⟨.idle, hcalled.answer false, ⟨r, ?_⟩, h1, h2⟩
    exact (Engine.places_refused hw hcl).trans (by rw [hr]; rfl)
  | false =>
    rw [if_neg (by simp), if_neg (by simp [hf])]
    cases Engine.puts_runCalling hw hcl with
    | failed hfail => simp [hf] at hfail
    | installed hlog hpl =>
      rw [hlog]
      refine ⟨.installed, hcalled.install, ?_, rfl, h1, h2⟩
      exact hpl.trans (by rw [hr]; rfl)
    | @queued chunk k hlog hpl =>
      rw [hlog]
      refine ⟨.taken, hcalled, ⟨k, r, ?_⟩, ?_, h2⟩
      · exact hpl.trans (by rw [hr]; rfl)
      · simp [Numbered.note, h1]

theorem Tracked.afterShim (h : t.Tracked) (hi : t.engine.Invariant)
    (hw : t.engine.ctx.workReq.isSome) : (t.afterShim t.engine.afterShim).Tracked := by
  obtain ⟨k, -, -, -, -, hcb, hh, -⟩ := hi.sound.control.native hw
  obtain ⟨p, hk, hp⟩ := h
  obtain rfl := hp.installed hw
  obtain ⟨hr, hreq, h1, h2⟩ := hp
  have hcb' : t.engine.req.callback = some k := hcb
  have hh' : t.engine.vcd.hadError = false := hh
  obtain ⟨k', hpl⟩ := Engine.places_afterShim hh' (by simp [hcb'])
  obtain ⟨n, hn⟩ := hk.calls_eq (by simp)
  rw [hn, Nat.add_sub_cancel] at hreq
  rw [hn] at hk
  unfold Numbered.afterShim
  rw [hreq]
  dsimp only
  cases he : t.engine.ctx.hasError with
  | true =>
    rw [he, if_pos rfl, hr] at hpl
    rw [if_pos rfl]
    refine ⟨.broken, ?_, ⟨true, hpl⟩, h1, h2⟩
    show Kept t.calls _ _
    rw [hn]
    exact hk.fail
  | false =>
    rw [he, if_neg (by simp), hr] at hpl
    rw [if_neg (by simp), if_neg (by simp [hh'])]
    refine ⟨.delivered, ?_, ⟨k', true, hpl⟩, h1, ?_⟩
    · show Kept t.calls _ _
      rw [hn]
      exact hk.deliver _
    · show n :: t.frames = [t.calls - 1]
      rw [h2, hn, Nat.add_sub_cancel]

/-- The `cb` of a queued call is called. -/
theorem Tracked.tick (h : t.Tracked) {k : TransformCb} {ts : List Tick}
    (ht : t.engine.ticks = .transformCb k :: ts) :
    (t.tick (({ t.engine with ticks := ts } : Engine σ).runTick (.transformCb k))).Tracked := by
  obtain ⟨p, hk, hp⟩ := h
  have hne : t.engine.places.ticks ≠ [] := by simp [Engine.places, ht, Tick.waiting]
  obtain rfl := hp.taken hne
  obtain ⟨⟨k', r, hr⟩, h1, h2⟩ := hp
  obtain ⟨n, hn⟩ := hk.calls_eq (by simp)
  rw [hn, Nat.add_sub_cancel] at h1
  rw [hn] at hk
  have hpl : ({ t.engine with ticks := ts } : Engine σ).places =
      ⟨[], [], r, false, false, t.deeds⟩ := by
    simp only [Engine.places, ht, Tick.waiting, List.filterMap_cons, Places.mk.injEq,
      List.cons.injEq] at hr ⊢
    exact ⟨hr.1.2, hr.2⟩
  unfold Numbered.tick
  rw [ht, h1]
  refine ⟨.idle, ?_, ⟨r, ?_⟩, rfl, h2⟩
  · show Kept t.calls _ _
    rw [hn]
    exact hk.answer true
  · exact (Engine.places_transformCb _ _ _ (by simp)).trans (by rw [hpl]; rfl)

/-- The `cb` behind a push is called. -/
theorem Tracked.frame (h : t.Tracked) {k : TransformCb} {fs : List Frame}
    (hc : t.engine.calling = none) (hst : t.engine.stack = .cb k :: fs) :
    (t.run (({ t.engine with stack := fs } : Engine σ).runFrame (.cb k))).Tracked := by
  obtain ⟨p, hk, hp⟩ := h
  have hne : t.engine.places.frames ≠ [] := by simp [Engine.places, hst, Frame.waiting]
  obtain rfl := hp.delivered hne
  obtain ⟨⟨k', r, hr⟩, h1, h2⟩ := hp
  obtain ⟨n, hn⟩ := hk.calls_eq (by simp)
  rw [hn, Nat.add_sub_cancel] at h2
  rw [hn] at hk
  have hpl : ({ t.engine with stack := fs } : Engine σ).places =
      ⟨[], [], r, false, false, t.deeds⟩ := by
    simp only [Engine.places, hst, Frame.waiting, List.filterMap_cons, Places.mk.injEq,
      List.cons.injEq] at hr ⊢
    exact ⟨hr.1, hr.2.1.2, hr.2.2⟩
  unfold Numbered.run
  rw [hc, hst, h2]
  refine ⟨.idle, ?_, ⟨r, ?_⟩, h1, rfl⟩
  · show Kept t.calls _ _
    rw [hn]
    exact hk.finish
  · exact (Engine.places_transformCb _ _ _ (by simp)).trans (by rw [hpl]; rfl)

theorem tick_other {tk : Tick} {ts : List Tick} (ht : t.engine.ticks = tk :: ts)
    (hw : tk.waiting = none) : t.tick s = { t with engine := s } := by
  unfold Numbered.tick
  rw [ht]
  cases tk with
  | transformCb k => cases hw
  | _ => rfl

theorem run_other {f : Frame} {fs : List Frame} (hc : t.engine.calling = none)
    (hst : t.engine.stack = f :: fs) (hw : f.waiting = none) :
    t.run s = { t with engine := s } := by
  unfold Numbered.run
  rw [hc, hst]
  cases f with
  | cb k => cases hw
  | _ => rfl

theorem Tracked.step (h : t.Tracked) (hi : t.engine.Invariant) (hs : t.step K a = some t') :
    t'.Tracked := by
  obtain ⟨s, hstep, rfl⟩ := Option.map_eq_some_iff.mp hs
  obtain ⟨-, hm⟩ := step_moves hstep
  cases hm with
  | @work w ctx calls hw hd hp =>
    exact h.congr (hi.places_work hw hd hp)
  | workFail => exact h.congr rfl
  | afterShim _ _ hw => exact h.afterShim hi hw
  | @tick tk ts ht =>
    by_cases hk : ∃ k, tk = .transformCb k
    · obtain ⟨k, rfl⟩ := hk
      exact h.tick ht
    · have hwait : tk.waiting = none := by
        cases tk with
        | transformCb k => exact absurd ⟨k, rfl⟩ hk
        | _ => rfl
      dsimp only
      rw [tick_other ht hwait]
      exact h.congr ((Engine.places_runTick hwait).trans (Engine.places_popTick ht hwait))
  | emitEnd => exact h.congr Engine.places_emitEnd
  | @calling c hc =>
    have hcall : t.run (t.engine.runCalling c) = t.call (t.engine.runCalling c) := by
      have hat := hi.sound.control.called (show t.engine.core.calling = some c from hc)
      unfold Numbered.run
      rw [hc]
      cases c with
      | flush => rfl
      | transform sync =>
        obtain ⟨req, hreq⟩ := Option.isSome_iff_exists.mp hat.2.2.2.2.2
        rw [show t.engine.ws.writing = some req from hreq]
    dsimp only
    rw [hcall]
    exact h.call hi hc (hi.step hstep).sound.control.flags.fault
  | @frame f fs hc hst =>
    by_cases hf : ∃ k, f = .cb k
    · obtain ⟨k, rfl⟩ := hf
      exact h.frame hc hst
    · have hf' : ∀ k, f ≠ .cb k := fun k hk => hf ⟨k, hk⟩
      dsimp only
      rw [run_other hc hst (Frame.waiting_eq_none hf')]
      exact h.congr (hi.places_frame hst hf')
  | user a _ hu =>
    cases a with
    | work | afterShim | tick | emitEnd | run => cases hu
    | _ => exact h.congr (Engine.places_userCall _)

/-- The trace only grows. -/
theorem step_trace (hs : t.step K a = some t') : t.trace <:+ t'.trace := by
  obtain ⟨s, -, rfl⟩ := Option.map_eq_some_iff.mp hs
  cases a with
  | run =>
    dsimp only
    unfold Numbered.run Numbered.call
    split
    · exact List.suffix_rfl
    · dsimp only
      split
      · exact List.suffix_append [_, _] _
      · split
        · exact List.suffix_cons _ _
        · split
          · exact List.suffix_append [_, _] _
          · exact List.suffix_cons _ _
    · split
      · exact List.suffix_cons _ _
      · exact List.suffix_rfl
  | tick =>
    dsimp only
    unfold Numbered.tick
    split
    · exact List.suffix_cons _ _
    · exact List.suffix_rfl
  | afterShim =>
    dsimp only
    unfold Numbered.afterShim
    split
    · exact List.suffix_rfl
    · split
      · exact List.suffix_cons _ _
      · dsimp only
        split
        · exact List.suffix_cons _ _
        · exact List.suffix_append [_, _] _
  | _ => exact List.suffix_rfl

/-- What the ledger of a stream says. -/
structure Matched (t : Numbered σ) : Prop where
  /-- the marks tell what the stream did -/
  observed : t.engine.log.filterMap Event.deed = t.deeds
  /-- calls are numbered in their order -/
  called : Ledger.called t.trace = List.range t.calls
  /-- the k-th completion invokes the callback that the k-th write installed -/
  invoked : Ledger.invoked t.trace <+: Ledger.installed t.trace
  /-- callbacks are called at most once, in the order of the calls -/
  answered : (Ledger.answered t.trace).Pairwise (· < ·)
  /-- that of a call with a write is called right behind the push of its output -/
  pushed : ∀ newer n ok older, t.trace = newer ++ .answered n ok :: older →
    n ∈ Ledger.installed t.trace →
      ok = true ∧ ∃ out older', older = .pushed n out :: .invoked n :: older'
  next : ∀ newer n out older, t.trace = newer ++ .pushed n out :: older →
    newer = [] ∨ ∃ newer', newer = newer' ++ [.answered n true]
  /-- and never when the write fails -/
  failed : ∀ n, .failed n ∈ t.trace → n ∈ Ledger.installed t.trace ∧ n ∉ Ledger.answered t.trace

theorem Tracked.matched (h : t.Tracked) : t.Matched := by
  obtain ⟨p, hk, hp⟩ := h
  refine ⟨?_, hk.called_eq, ?_, hk.answered_lt.1, fun _ _ _ _ => hk.pushed_before,
    fun _ _ _ _ heq => (hk.answered_next heq).imp_left And.left,
    fun n hn => ⟨(hk.failed_last hn).2.2, hk.failed_unanswered hn⟩⟩
  · show t.engine.places.deeds = t.deeds
    cases p with
    | installed => rw [hp.1]
    | taken | delivered => obtain ⟨⟨k, r, hr⟩, -⟩ := hp; rw [hr]
    | idle | broken => obtain ⟨⟨r, hr⟩, -⟩ := hp; rw [hr]
  · rw [hk.installed_eq]
    exact List.prefix_append _ _

variable {mode : Mode} {m : Number} {h : ℤ} {x : σ}

theorem Tracked.reaches (hr : Reaches (Numbered.step K) anyStep (.init mode m h x) t) :
    t.Tracked := by
  induction hr with
  | refl => exact ⟨.idle, .nil, ⟨false, rfl⟩, rfl, rfl⟩
  | tail hr _ hs ih => exact ih.step (.reaches (engine_of_reaches hr)) hs

/-- The steps of `Progress`, with the numbers in tow. -/
def Progress (K : Coder σ) (t t' : Numbered σ) : Prop :=
  ∃ a, Engine.Act.onItsOwn t.engine a ∧ t.step K a = some t'

/-- Every completion invokes the callback of its own write, which is called once. -/
theorem completions_matched (hr : Reaches (step K) anyStep (init mode m h x) t) :
    t.Matched ∧ ∀ n, .invoked n ∈ t.trace →
      Inevitable (Progress K) (fun t' => .answered n true ∈ t'.trace) t := by
  have ht := Tracked.reaches hr
  have hi : t.engine.Invariant := .reaches (engine_of_reaches hr)
  refine ⟨ht.matched, fun n hn => ?_⟩
  have hrest := hi.comes_to_rest (K := K)
  have hlift : Inevitable (Progress K) (fun t' => (t'.engine.Quiescent ∧ t'.engine.Invariant ∧
      Reaches (Engine.step K) Engine.Act.onItsOwn t.engine t'.engine) ∧
      t'.Tracked ∧ t'.engine.Invariant ∧ .invoked n ∈ t'.trace) t := by
    refine hrest.lift Numbered.engine ?_ ?_ rfl ⟨ht, hi, hn⟩
    · rintro t t' ⟨h1, h2, h3⟩ ⟨a, ha, hs⟩
      have hstep := engine_of_step hs
      exact ⟨⟨a, ha, hstep⟩, h1.step h2 hs, h2.step hstep, (step_trace hs).subset h3⟩
    · rintro t s' ⟨a, ha, hs⟩
      obtain ⟨t', hs', -⟩ := exists_step hs
      exact ⟨t', a, ha, hs'⟩
  refine hlift.imp ?_
  rintro t' ⟨⟨hq, -, -⟩, ⟨p, hk, hp⟩, -, hn⟩
  rcases hk.answered_of_invoked hn with ⟨rfl, -⟩ | ha
  · -- nothing waits on the stack of a stream at rest
    obtain ⟨⟨k, r, hr⟩, -⟩ := hp
    simp [Engine.places, hq.stack] at hr
  · exact ha

/-- Closed from a handler that runs on the first completion, with a second chunk queued. -/
theorem completions_matched_copy : ∃ t, Reaches (step copyCoder) anyStep
      (init .decode (minEncodeWindowSizeOf none) 16384 ()) t ∧ .invoked 0 ∈ t.trace ∧
    t.engine.vcd.closed = true ∧ t.Matched ∧
    Inevitable (Progress copyCoder) (fun t' => .answered 0 true ∈ t'.trace) t := by
  have hrun : ∃ t, Reaches (step copyCoder) anyStep
      (init .decode (minEncodeWindowSizeOf none) 16384 ()) t ∧ .invoked 0 ∈ t.trace ∧
      t.engine.vcd.closed = true :=
    Transition.exists_reaches [.write [1], .run, .write [2], .work, .afterShim, .close false]
      (by decide +kernel)
  obtain ⟨t, hr, hn, hc⟩ := hrun
  obtain ⟨hm, hi⟩ := completions_matched hr
  exact ⟨t, hr, hn, hc, hm, hi 0 hn⟩

end Numbered

end NodeVcdiff
