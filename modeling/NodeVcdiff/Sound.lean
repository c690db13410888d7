import NodeVcdiff.Coded
import NodeVcdiff.Transition

/-!
# The invariant of a stream

Control, bytes and coder together hold in every reachable state, whatever the user, the
reader, the coder and the two threads do.
-/

namespace NodeVcdiff

open Script (Number)
open Transition (Reaches anyStep)

variable {σ : Type*} {K : Coder σ}

namespace Core

variable {c c' : Core σ}

structure Sound (c : Core σ) : Prop where
  control : c.Control
  held : c.Held
  coded : c.Coded

/-- `Process` on a queued write never trips an assertion. -/
theorem Sound.processShim (h : c.Sound) {w : WorkData} (hw : c.ctx.workReq = some w)
    (hd : c.ctx.workDone = false) : ∃ ctx calls,
      c.ctx.processShim K w = .ok ({ ctx with workDone := true }, calls) ∧
      VcdCtx.Processed c.ctx w.data w.isLast ctx calls ∧
      VcdCtx.Tracks ctx (c.log.calls ++ calls) := by
  have hcoder : c.ctx.coder.isSome :=
    h.control.flags.coder (by rw [h.control.flags.inProgress, hw]; rfl)
  obtain ⟨k, hat⟩ := h.control.native (by simp [hw])
  have herr : c.ctx.err = .ok := hat.2.2.2.2.2.2.1 hd
  exact VcdCtx.processShim_spec K w hcoder h.coded.tracks fun _ =>
    (h.coded.settled herr).empty (.inr hd)

/-- What the worker's run of `Process` leaves. -/
theorem Sound.worked (h : c.Sound) {w : WorkData} (hw : c.ctx.workReq = some w)
    (hd : c.ctx.workDone = false) {ctx : VcdCtx σ} {calls : List Call}
    (hp : c.ctx.processShim K w = .ok (ctx, calls)) :
    ∃ ctx', ctx = { ctx' with workDone := true } ∧
      VcdCtx.Processed c.ctx w.data w.isLast ctx' calls ∧
      VcdCtx.Tracks ctx' (c.log.calls ++ calls) := by
  obtain ⟨ctx', calls', hp', hdone, htr⟩ := h.processShim (K := K) hw hd
  obtain ⟨rfl, rfl⟩ : { ctx' with workDone := true } = ctx ∧ calls' = calls := by
    simpa using hp'.symm.trans hp
  exact ⟨ctx', rfl, hdone, htr⟩

theorem Control.transforming (h : c.Control) (ht : c.transforming = true) :
    c.writing.isSome := by
  obtain ⟨⟨t, hat⟩, -, -⟩ := h
  cases t with
  | rest => simp [hat.2.2.1] at ht
  | called call => simp [hat.2.2.1] at ht
  | parked k => cases k <;> simp_all [At, Busy]
  | native k => cases k <;> simp_all [At, Busy]
  | lost k => cases k <;> simp_all [At, Busy]

theorem Control.eof (h : c.Control) (he : c.eof = true) : c.At .rest := by
  obtain ⟨⟨t, hat⟩, hf, -⟩ := h
  have hw : c.writing = none := (hf.finished (hf.eof he)).2.1
  have hbusy : ∀ k, ¬ c.Busy k := by
    rintro (_ | _) hb
    · exact absurd hb.2 (by rw [hw]; simp)
    · simp [Busy, he] at hb
  cases t with
  | rest => exact hat
  | called call =>
    cases call with
    | transform sync => simp [At, hw] at hat
    | flush => simp [At, he] at hat
  | parked k => exact absurd hat.2.2.2.2.2.2 (hbusy k)
  | native k => exact absurd hat.2.2.2.2.2.2.2 (hbusy k)
  | lost k => exact absurd hat.2.2.2.2 (hbusy k)

theorem Sound.accept (h : c.Sound) (hc : c.calling = none) (he : c.ending = false)
    (hq : ¬ c.log.Refused → c.writing = none → c.queue = []) (req : WriteReq) (wants : Bool) :
    (c.accept req wants).Sound := by
  refine ⟨h.control.accept hc he req wants,
    h.held.accept he req wants h.control.transforming hq, ?_⟩
  have hfields : (c.accept req wants).ctx = c.ctx ∧
      (c.accept req wants).log = [.accept req.chunk] ++ c.log := by
    unfold Core.accept
    dsimp only
    split <;> exact ⟨rfl, rfl⟩
  obtain ⟨f1, f2⟩ := hfields
  exact h.coded.congr (by rw [f1]) (by rw [f1]) (by rw [f1]) (by rw [f1]) (by rw [f1])
    _ f2 (by simp [Event.isOutside]) (by simp [Event.isQuiet])

theorem Sound.next (h : c.Sound) (hc : c.calling = none) (hw : c.writing = none)
    {req : WriteReq} {rest : List WriteReq} (hq : c.queue = req :: rest) (wants : Bool) :
    (({ c with queue := rest } : Core σ).start req wants).Sound := by
  have hrest := h.control.rest_before_next hc hw hq
  exact ⟨h.control.next hc hw hq wants, h.held.next hw hrest.2.2.1 hq wants,
    h.coded.congr rfl rfl rfl rfl rfl [] rfl (by simp) (by simp)⟩

theorem Sound.close (h : c.Sound) : c.close.Sound := by
  have hx := VcdCtx.sameWork_close c.ctx
  refine ⟨h.control.close, ?_, ?_⟩
  · have hnote : (c.note .close).Held :=
      h.held.congr rfl rfl rfl rfl rfl rfl rfl rfl id
        (.inr ⟨.close, rfl, by simp, by simp, by simp⟩) id
    unfold Core.close
    dsimp only
    split
    · exact hnote
    · split
      · exact hnote.congr rfl rfl rfl rfl rfl rfl rfl rfl id
          (.inr ⟨.nativeClose, rfl, by simp, by simp, by simp⟩) fun hy => by
            simpa [note, hx.workReq] using hy
      · exact hnote.congr rfl rfl rfl rfl rfl rfl rfl rfl id (.inl rfl) id
  · unfold Core.close
    dsimp only
    split
    · exact h.coded.congr rfl rfl rfl rfl rfl [.close] rfl (by simp [Event.isOutside])
        (by simp [Event.isQuiet])
    · split
      · exact h.coded.congr hx.workReq hx.workDone hx.state hx.err hx.outputBuffer
          [.nativeClose, .close] rfl (by simp [Event.isOutside]) (by simp [Event.isQuiet])
      · exact h.coded.congr rfl rfl rfl rfl rfl [.close] rfl (by simp [Event.isOutside])
          (by simp [Event.isQuiet])

theorem Sound.endEvent (h : c.Sound) (he : c.eof = true) : (c.note .endEvent).close.Sound := by
  have herr : c.ctx.err = .ok := (h.control.eof he).2.2.2.2
  refine Sound.close ⟨h.control.endEvent he, ?_, ?_⟩
  · exact h.held.congr rfl rfl rfl rfl rfl rfl rfl rfl id
      (.inr ⟨.endEvent, rfl, by simp, by simp, by simp⟩) id
  · exact h.coded.congr rfl rfl rfl rfl rfl [.endEvent] rfl (by simp [Event.isOutside])
      fun hne => absurd herr hne

/-- A call runs: it is refused, or takes its chunk and hands over or keeps. -/
theorem Sound.call (h : c.Sound) {call : Calling} (hc : c.calling = some call)
    (forceFlush : Bool) : (c.runCalling call forceFlush).Sound := by
  have hat := h.control.called hc
  have hcontrol := h.control.call hc forceFlush
  refine ⟨hcontrol, ?_, ?_⟩
  · rw [runCalling_eq hat h.control.flags]
    obtain ⟨_, hfree, htr, hh, herr, hcall⟩ := hat
    split
    · cases call with
      | transform sync =>
        obtain ⟨req, hreq⟩ := Option.isSome_iff_exists.mp hcall
        refine h.held.finishWriting hreq (b := false) (by simp) ?_ ?_ ?_ ?_ ?_ ?_ ?_ <;>
          simp [transformCb, begin, note, hreq, finishWriting, Calling.callback]
      | flush =>
        have heq : (c.begin .flush).transformCb .done false =
            { c with calling := none, log := .transformCb .done false :: c.log } := by
          simp [transformCb, begin, note]
        simp only [Calling.callback, heq]
        exact h.held.congr rfl rfl rfl rfl rfl rfl rfl rfl id
          (.inr ⟨_, rfl, by simp, by simp, by simp⟩) id
    · refine h.held.running htr hfree.done hfree.workReq ?_ forceFlush
      rintro rfl
      have := h.control.flags.finished hcall.1
      exact ⟨this.1, this.2.2.2⟩
  · rw [runCalling_eq hat h.control.flags]
    obtain ⟨_, hfree, htr, hh, herr, hcall⟩ := hat
    split
    · have hd := c.turnedDown call
      exact h.coded.congr (by rw [hd.ctx]) (by rw [hd.ctx]) (by rw [hd.ctx]) (by rw [hd.ctx])
        (by rw [hd.ctx]) [.transformCb call.callback false] hd.log (by simp [Event.isOutside])
        fun hne => absurd herr hne
    · have htake : ((c.begin call).take (c.chunkOf call)).Coded := by
        have hb := c.begin_fields call
        obtain ⟨-, -, -, -, -, hlog, -, -, -, -, -, hctx, -⟩ := hb
        exact h.coded.congr (by simp [take, hctx]) (by simp [take, hctx]) (by simp [take, hctx])
          (by simp [take, hctx]) (by simp [take, hctx]) [.take (c.chunkOf call)]
          (by simp [take, hlog]) (by simp [Event.isOutside]) fun hne => absurd herr hne
      have hctx : ((c.begin call).take (c.chunkOf call)).ctx = c.ctx := by
        cases call <;> rfl
      unfold Core.running
      dsimp only
      split
      · refine htake.submit (hctx ▸ hfree.workReq) (hctx ▸ herr) _ _ rfl rfl fun hl => ?_
        have hl' : c.log.lastWritten = true := by
          cases call <;> simpa [take, begin, History.lastWritten] using hl
        obtain ⟨-, hbuf, hwait⟩ := h.held.last hl'
        rw [waiting_begin call htr, List.append_eq_nil_iff] at hwait
        have hb2 : ((c.begin call).take (c.chunkOf call)).buffers = c.buffers ++ [c.chunkOf call] := by
          cases call <;> rfl
        rw [Engine.concat, hb2]
        simp [hbuf, hwait.1]
      · have hpark : ∀ k : TransformCb, (((c.begin call).take (c.chunkOf call)).park k).Coded := by
          rintro (_ | _) <;>
            exact htake.congr rfl rfl rfl rfl rfl [] rfl (by simp) (by simp)
        exact hpark _

/-- A waiting callback is called. -/
theorem Sound.settle (h : c.Sound) {k : TransformCb} (hk : 0 < c.parked k) :
    ((c.unpark k).transformCb k true).Sound := by
  have hat := h.control.waits hk
  have hcontrol := h.control.settle hk
  obtain ⟨-, -, -, -, e1, e2⟩ := hat.settle
  obtain ⟨-, h1, h2, h3, hh, herr, hbusy⟩ := hat
  refine ⟨hcontrol, ?_, ?_⟩
  · cases k with
    | afterTransform =>
      obtain ⟨req, hreq⟩ := Option.isSome_iff_exists.mp hbusy.2
      rw [settle_afterTransform hreq]
      refine h.held.finishWriting hreq (b := true) (fun _ => hbusy.1) ?_ ?_ ?_ ?_ ?_ ?_ ?_ <;>
        simp
    | done =>
      rw [settle_done]
      exact h.held.congr rfl rfl rfl rfl rfl rfl rfl rfl id
        (.inr ⟨_, rfl, by simp, by simp, by simp⟩) fun _ => .inr (.inl hk)
  · exact h.coded.congr (by rw [e1]) (by rw [e1]) (by rw [e1]) (by rw [e1]) (by rw [e1])
      [.transformCb k true] e2 (by simp [Event.isOutside]) fun hne => absurd herr hne

theorem Sound.step (h : c.Sound) (hs : c.Step K c') : c'.Sound := by
  cases hs with
  | same => exact h
  | accept req wants hc he hq => exact h.accept hc he hq req wants
  | next wants hc hw hq => exact h.next hc hw hq wants
  | demand hc hw ht =>
    exact ⟨h.control.demand hc hw ht,
      h.held.congr rfl rfl rfl rfl rfl rfl rfl rfl id (.inl rfl) id,
      h.coded.congr rfl rfl rfl rfl rfl [] rfl (by simp) (by simp)⟩
  | close => exact h.close
  | ending =>
    exact ⟨h.control.ending,
      h.held.congr rfl rfl rfl rfl rfl rfl rfl rfl (fun _ => rfl) (.inl rfl) id,
      h.coded.congr rfl rfl rfl rfl rfl [] rfl (by simp) (by simp)⟩
  | finish hc he hl hq hw hp =>
    exact ⟨h.control.finish hc he hl hq hw hp,
      h.held.congr rfl rfl rfl rfl rfl rfl rfl rfl id (.inl rfl) id,
      h.coded.congr rfl rfl rfl rfl rfl [] rfl (by simp) (by simp)⟩
  | call forceFlush hc => exact h.call hc forceFlush
  | settle k _ hk => exact h.settle hk
  | workFail hw hd hp =>
    obtain ⟨ctx, calls, hp', -⟩ := h.processShim (K := K) hw hd
    rw [hp'] at hp
    cases hp
  | @work w ctx' calls' hw hd hp =>
    obtain ⟨ctx, rfl, hdone, htr⟩ := h.worked hw hd hp
    obtain ⟨k, hat⟩ := h.control.native (by simp [hw])
    refine ⟨h.control.work hw hdone, ?_, h.coded.work hw hd (hat.2.2.2.2.2.2.1 hd) hdone htr⟩
    exact h.held.congr rfl rfl rfl rfl rfl rfl rfl rfl id
      (.inr ⟨_, rfl, by simp, by simp, by simp⟩) fun hx => by
        simpa [note, hdone.workReq] using hx
  | report _ hw hd he hs1 hs2 =>
    have herr : c.ctx.err ≠ .ok := by simpa [VcdCtx.hasError] using he
    refine ⟨h.control.report hw he hs1 hs2, ?_, h.coded.report hw herr⟩
    exact h.held.congr rfl rfl rfl rfl rfl rfl rfl rfl id
      (.inr ⟨_, rfl, by simp, by simp, by simp⟩) fun hx => by
        simpa [note, Core.report] using hx.imp_right (Or.imp_right fun hw' => ⟨hw, hw'.2⟩)
  | @deliver k _ hw hd he hk hs1 hs2 =>
    have herr : c.ctx.err = .ok := by simpa [VcdCtx.hasError] using he
    refine ⟨h.control.deliver hw he hk hs1 hs2, ?_, ?_⟩
    · have hpush : ∀ k, (c.deliver k).log = .push c.ctx.outputBuffer :: c.log := by
        rintro (_ | _) <;> rfl
      cases k with
      | afterTransform =>
        exact h.held.congr rfl rfl rfl rfl rfl rfl rfl rfl id
          (.inr ⟨_, hpush _, by simp, by simp, by simp⟩) fun hx => by
            rcases hx with hx | hx | ⟨hx, _⟩
            · exact .inl hx
            · exact .inr (.inl hx)
            · cases hx
      | done =>
        exact h.held.congr rfl rfl rfl rfl rfl rfl rfl rfl id
          (.inr ⟨_, hpush _, by simp, by simp, by simp⟩) fun _ => .inr (.inr ⟨hw, hk⟩)
    · obtain ⟨w, hw'⟩ := Option.isSome_iff_exists.mp hw
      exact h.coded.deliver herr (by simp [lastInFlight, hw', hd]) (by simp [inFlight, hw', hd]) k
  | afterCallback _ hs1 =>
    have hx := VcdCtx.sameWork_afterCallback c.ctx
    refine ⟨h.control.afterCallback hs1, ?_, h.coded.congr hx.workReq hx.workDone hx.state hx.err
      hx.outputBuffer [] rfl (by simp) (by simp)⟩
    exact h.held.congr rfl rfl rfl rfl rfl rfl rfl rfl id (.inl rfl) fun hy => by
      simpa [hx.workReq] using hy
  | afterOnerror _ hs1 =>
    have hx := VcdCtx.sameWork_afterOnerror c.ctx
    refine ⟨h.control.afterOnerror hs1, ?_, h.coded.congr hx.workReq hx.workDone hx.state hx.err
      hx.outputBuffer [] rfl (by simp) (by simp)⟩
    exact h.held.congr rfl rfl rfl rfl rfl rfl rfl rfl id (.inl rfl) fun hy => by
      simpa [hx.workReq] using hy
  | endEvent _ he => exact h.endEvent he

end Core

namespace Engine

/-- The invariant of a stream. -/
structure Invariant (s : Engine σ) : Prop where
  shape : s.Shape
  clearing : s.log.Refused ∨ s.Clearing
  sound : s.core.Sound

theorem Invariant.init (mode : Mode) (m : Number) (h : ℤ) (x : σ) :
    (Engine.init mode m h x).Invariant where
  shape := .init mode m h x
  clearing := .inr (.init mode m h x)
  sound := by
    refine ⟨⟨⟨.rest, rfl, ⟨rfl, rfl, rfl⟩, rfl, rfl, rfl⟩, ?_, ?_⟩, ?_, ?_⟩
    · constructor <;> simp [Engine.init, core, VcdCtx.create]
    · constructor <;> simp [Engine.init, core, VcdCtx.create, History.Refused]
    · constructor <;> simp [Engine.init, core, VcdCtx.create, Core.queued, Core.waiting,
        History.taken, History.handed, History.written, History.lastWritten, History.LastOnly]
    · refine ⟨?_, ?_, ?_, ?_, ?_⟩
      · exact VcdCtx.Tracks.create x
      · simp [VcdCtx.ErrorOf, Engine.init, core, History.calls]
      · intro _
        constructor <;> simp [Engine.init, core, VcdCtx.create, History.lastWritten,
          Core.lastInFlight, Core.inFlight, History.handed, History.processed, History.calls,
          History.pushed, History.appended, History.nativeErrors]
      · simp [Engine.init, core, History.FinishLast, History.calls]
      · simp [Engine.init, core]

variable {s s' : Engine σ} {a : Act}

theorem Invariant.core_step (h : s.Invariant) (hs : step K s a = some s') :
    s.core.Step K s'.core := by
  refine Engine.core_step h.shape h.clearing (fun hw => ?_) hs
  obtain ⟨k, hat⟩ := h.sound.control.native hw
  exact ⟨hat.2.2.2.2.2.1, by simp [show s.req.callback = some k from hat.2.2.2.2.1]⟩

theorem Invariant.step (h : s.Invariant) (hs : step K s a = some s') : s'.Invariant where
  shape := h.shape.step hs
  clearing := Clearing.step h.clearing h.shape hs
  sound := h.sound.step (h.core_step hs)

/-- The invariant holds in every state of every run. -/
theorem Invariant.reaches {mode : Mode} {m : Number} {h : ℤ} {x : σ}
    {ok : Engine σ → Act → Prop} (hr : Reaches (Engine.step K) ok (Engine.init mode m h x) s) :
    s.Invariant :=
  hr.invariant (.init mode m h x) fun _ _ _ hi _ hs => hi.step hs

theorem constant_of_reaches {mode : Mode} {m : Number} {h : ℤ} {x : σ}
    {ok : Engine σ → Act → Prop} (hr : Reaches (step K) ok (Engine.init mode m h x) s) :
    s.vcd.minEncodeWindowSize = m ∧ s.vcd.mode = mode := by
  induction hr with
  | refl => exact ⟨rfl, rfl⟩
  | tail hr _ hs ih =>
    obtain ⟨h1, h2⟩ := ((Invariant.reaches hr).core_step hs).constant
    exact ⟨h1.trans ih.1, h2.trans ih.2⟩

end Engine

end NodeVcdiff
