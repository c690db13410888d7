import NodeVcdiff.OneShotReturn

/-!
# One-shot calls without input

A call that has nothing to write ends its engine: the coder is started, fed the one empty
buffer of `_flush`, and finished. An argument that Writable does not take makes such a call
too, behind an error that was reported already.
-/

namespace NodeVcdiff

open Script (Number)
open Transition (Reaches anyStep Inevitable)

variable {σ : Type*} {K : Coder σ} {x : σ}

namespace Core

variable {c c' : Core σ}

/-- Nothing was gathered, and the only buffer handed over is that of `_flush`. -/
structure Bare (c : Core σ) : Prop where
  buffers : c.buffers = []
  handed : c.log.handedBuffers = [] ∨
    c.log.handedBuffers = [[]] ∧ c.prefinished = true ∧ c.calling = none

theorem Bare.congr (h : c.Bare) (hb : c'.buffers = c.buffers)
    (hp : c'.prefinished = c.prefinished) (hc : c'.calling = c.calling) (new : History)
    (hlog : c'.log = new ++ c.log) (hn : ∀ l b, .nativeWrite l b ∉ new) : c'.Bare := by
  refine ⟨hb.trans h.buffers, ?_⟩
  rw [hlog, History.handedBuffers_append new hn, hp, hc]
  exact h.handed

theorem Bare.close (h : c.Bare) : c.close.Bare := by
  unfold Core.close
  dsimp only
  split
  · exact h.congr rfl rfl rfl [.close] rfl (by simp)
  · split
    · exact h.congr rfl rfl rfl [.nativeClose, .close] rfl (by simp)
    · exact h.congr rfl rfl rfl [.close] rfl (by simp)

/-- `_flush` hands over one empty buffer. -/
theorem Bare.flush (h : c.Bare) (hs : c.Sound) (hc : c.calling = some .flush)
    (forceFlush : Bool) : (c.runCalling .flush forceFlush).Bare := by
  have hat := hs.control.called hc
  have hnil : c.log.handedBuffers = [] := by
    refine h.handed.resolve_right fun hh => ?_
    rw [hc] at hh
    cases hh.2.2
  rw [runCalling_eq hat hs.control.flags]
  split
  · refine ⟨h.buffers, .inl ?_⟩
    exact (History.handedBuffers_append [.transformCb .done false] (by simp)).trans hnil
  · have hfull : ((c.begin .flush).take (c.chunkOf .flush)).full
        (forceFlush || decide ((c.chunkOf .flush).length = 0)) = true := by
      simp [full, chunkOf]
    have hdata : Engine.concat (c.buffers ++ [c.chunkOf .flush])
        (c.nread + (c.chunkOf .flush).length) = [] := by
      simp [Engine.concat, h.buffers, chunkOf]
    unfold running
    simp only [hfull, if_true]
    refine ⟨rfl, .inr ⟨?_, hat.2.2.2.2.2.1, rfl⟩⟩
    show c.log.handedBuffers ++ [_] = _
    rw [hnil]
    exact congrArg (fun b => [b]) hdata

/-- Steps that write nothing. -/
theorem Bare.step (h : c.Bare) (hs : c.Sound) (hstep : c.Step K c') (hw : c.writing = none)
    (hq : c.queue = []) (hw' : c'.writing = none) : c'.Bare := by
  cases hstep with
  | same => exact h
  | accept req wants =>
    simp [Core.accept, Core.start, hw] at hw'
  | next _ _ _ hn => rw [hq] at hn; cases hn
  | demand _ hn => rw [hw] at hn; cases hn
  | close => exact h.close
  | endEvent => 
    have hnote : (c.note .endEvent).Bare := h.congr rfl rfl rfl [.endEvent] rfl (by simp)
    exact hnote.close
  | finish _ _ _ _ _ hp =>
    refine ⟨h.buffers, .inl (h.handed.resolve_right fun hh => ?_)⟩
    rw [hp] at hh
    cases hh.2.1
  | @call call forceFlush hc =>
    cases call with
    | flush => exact h.flush hs hc forceFlush
    | transform sync =>
      obtain ⟨-, -, -, -, -, hsome⟩ := hs.control.called hc
      rw [hw] at hsome
      cases hsome
  | settle k _ hk =>
    cases k with
    | afterTransform =>
      have hsome := (hs.control.waits (k := .afterTransform) hk).2.2.2.2.2.2.2
      rw [hw] at hsome
      cases hsome
    | done =>
      rw [settle_done]
      exact h.congr rfl rfl rfl [_] rfl (by simp)
  | work | report => exact h.congr rfl rfl rfl [_] rfl (by simp)
  | @deliver k => cases k <;> exact h.congr rfl rfl rfl [.push c.ctx.outputBuffer] rfl (by simp)
  | ending | workFail | afterCallback | afterOnerror => exact h.congr rfl rfl rfl [] rfl (by simp)

end Core

namespace Engine

variable {s s' : Engine σ} {a : Act} {mode : Mode} {m : Number} {highWaterMark : ℤ}
  {ok : Engine σ → Act → Prop}

/-- No chunk and no parked flush was ever there. -/
structure Unwritten (s : Engine σ) : Prop where
  pending : s.pending = 0
  bare : s.core.Bare

theorem Unwritten.idle (h : s.Unwritten) : s.ws.writing = none ∧ s.ws.bufferedRequest = [] := by
  have hp := h.pending
  unfold Engine.pending at hp
  constructor
  · cases hw : s.ws.writing with
    | none => rfl
    | some req => simp [hw] at hp
  · exact List.eq_nil_of_length_eq_zero (by omega)

theorem Unwritten.close (h : s.Unwritten) : (s.close none).Unwritten where
  pending := price_close.2.2.trans h.pending
  bare := by rw [core_close]; exact h.bare.close

/-- Steps that write nothing, park nothing and do not close. -/
def Act.isPlain : Act → Bool
  | .write _ | .flush _ | .close _ => false
  | _ => true

theorem Unwritten.step (h : s.Unwritten) (hi : s.Invariant) (hs : step K s a = some s')
    (ha : a.isPlain = true) : s'.Unwritten := by
  have hp : s'.pending = 0 := by
    by_cases hown : a.onItsOwn s
    · have hle : s'.pending ≤ s.pending :=
        (hi.nearer ⟨a, hown, hs⟩).elim le_of_lt fun he => he.1.le
      exact Nat.le_zero.mp (h.pending ▸ hle)
    · obtain ⟨-, hm⟩ := step_moves hs
      cases hm with
      | user a =>
        cases a with
        | write | flush | close => cases ha
        | endWritable =>
          rw [← h.pending]
          simp only [userCall, endWritable]
          split
          · rfl
          · simp [Engine.pending, Frame.pending]
        | _ => exact h.pending
      | _ => exact absurd trivial hown
  have hw' : s'.ws.writing = none := by
    unfold Engine.pending at hp
    cases hw : s'.ws.writing with
    | none => rfl
    | some req => simp [hw] at hp
  exact ⟨hp, h.bare.step hi.sound (hi.core_step hs) h.idle.1 h.idle.2 hw'⟩

/-- The coder sees at most one buffer, which is empty, and one at least before it is finished. -/
theorem Unwritten.chunks (h : s.Unwritten)
    (hr : Reaches (Engine.step K) ok (init mode m highWaterMark x) s) : ∃ rest,
      Call.chunks s.log.calls ++ rest = [[]] ∧
      ((∃ q ∈ s.log.calls, q.isFinish = true) → rest = []) := by
  have hfed := fed_of_reaches hr
  have hcalls : s.core.log.calls = s.log.calls := History.flow_calls
  have hpre : Call.chunks s.log.calls <+: [[]] := by
    have hhanded : s.core.log.handedBuffers <+: [[]] := by
      rcases h.bare.handed with hh | ⟨hh, -⟩ <;> rw [hh]
      · exact List.nil_prefix
    exact hcalls ▸ hfed.isPrefix.trans hhanded
  obtain ⟨rest, hrest⟩ := hpre
  refine ⟨rest, hrest, fun hfin => ?_⟩
  have hne := hfed.fed (hcalls ▸ hfin)
  rw [hcalls] at hne
  have hlen := congrArg List.length hrest
  rw [List.length_append, List.length_singleton] at hlen
  exact List.eq_nil_of_length_eq_zero (by have := List.length_pos_of_ne_nil hne; omega)

/-- Whether the stream ends or fails, the coder was given one empty buffer. -/
theorem Unwritten.run_of_ended (h : s.Unwritten)
    (hr : Reaches (Engine.step K) ok (init mode m highWaterMark x) s) (he : .endEvent ∈ s.log) :
    K.run x [[]] = .ok s.log.pushed := by
  have hi : s.Invariant := .reaches hr
  obtain ⟨-, -, -, -, o, ho⟩ := hi.at_end (hi.ended he)
  obtain ⟨rest, hrest, hfin⟩ := h.chunks hr
  rw [hfin ⟨_, ho, rfl⟩, List.append_nil] at hrest
  rw [← hrest]
  exact (Engine.run_of_ended hr he).1

theorem Unwritten.run_of_failed (h : s.Unwritten)
    (hr : Reaches (Engine.step K) ok (init mode m highWaterMark x) s)
    (hf : s.log.hasFailed = true) : K.run x [[]] = .error s.ctx.err := by
  obtain ⟨rest, hrest, hfin⟩ := h.chunks hr
  rw [← hrest]
  exact run_append_of_failed hr hf rest hfin

end Engine

namespace VcdiffBuffer

variable {w w' u : VcdiffBuffer σ} {mode : Mode} {m : Number} {highWaterMark : ℤ}
  {pre : List (Except ErrorObject Buffer)} {new : History}

theorem hear_unwritten (h : u.engine.Unwritten) : (new.foldr hear u).engine.Unwritten := by
  induction new with
  | nil => exact h
  | cons e new ih =>
    rw [List.foldr_cons]
    cases e with
    | endEvent =>
      rw [hear]
      split
      · exact ih.close
      · exact ih
    | _ => exact ih

variable (K x mode m highWaterMark pre) in
/-- A call that writes nothing. -/
structure Empty (w : VcdiffBuffer σ) : Prop where
  good : Good K x mode m highWaterMark [] pre w
  script : ∀ a ∈ w.script, a.isPlain = true
  unwritten : w.engine.Unwritten

theorem Empty.perform {a : Engine.Act} (hi : w.engine.Invariant) (h : w.engine.Unwritten)
    (ha : a.isPlain = true) (hp : w.perform K a = some w') :
    w'.engine.Unwritten ∧ w'.script = w.script := by
  obtain ⟨t, new, hs, -, rfl⟩ := perform_spec hi.shape hp
  refine ⟨hear_unwritten (h.step hi hs ha), ?_⟩
  rw [hear_script]
  split
  · exact (flowRead_spec w).2.2.1
  · rfl

theorem Empty.step {a : Act} (h : Empty K x mode m highWaterMark pre w)
    (hs : w.step K a = some w') : Empty K x mode m highWaterMark pre w' := by
  have hi : w.engine.Invariant := .reaches h.good.reach
  have hgood := h.good.step hs
  cases a with
  | body =>
    simp only [VcdiffBuffer.step] at hs
    split at hs
    · next a rest hscript =>
      have hplain := h.script
      rw [hscript] at hplain
      split at hs
      · obtain ⟨h1, h2⟩ := Empty.perform (w := { w with script := rest }) hi h.unwritten
          (hplain a List.mem_cons_self) hs
        refine ⟨hgood, fun b hb => hplain b (List.mem_cons_of_mem _ ?_), h1⟩
        rwa [h2] at hb
      · cases hs
    · cases hs
  | engine a =>
    simp only [VcdiffBuffer.step] at hs
    split at hs
    · next ha =>
      obtain ⟨h1, h2⟩ := Empty.perform hi h.unwritten (by cases a <;> first | rfl | cases ha) hs
      exact ⟨hgood, h2 ▸ h.script, h1⟩
    · cases hs

/-- A call with nothing to write, after what it has heard so far. -/
theorem Empty.start (hpre : w.results = pre ∧ w.endListener = pre.isEmpty)
    (he : w.engine = .init mode m highWaterMark x) (hb : w.buffers = [] ∧ w.nread = 0)
    (hs : w.script = [.endWritable, .read]) : Empty K x mode m highWaterMark pre w where
  good := .start hpre he hb (.inr ⟨hs, rfl⟩)
  script := by rw [hs]; decide
  unwritten := by
    rw [he]
    exact ⟨rfl, rfl, .inl rfl⟩

/-! ## The callback -/

end VcdiffBuffer

end NodeVcdiff
