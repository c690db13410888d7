import NodeVcdiff.Sound
import NodeVcdiff.Options
import Mathlib.Data.List.Infix

/-!
# Safety of a stream

What the invariant says about whole runs: no byte is lost, doubled or reordered on its way
to the coder, the end is emitted only behind a successful `Finish`, and closing and native
work never get in each other's way.
-/

namespace NodeVcdiff

open Script (Number)
open Transition (Reaches anyStep)

/-! ## The core's history tells the same -/

namespace History

variable {h : History}

/-- A projection that skips the other events is the same on the core's history. -/
theorem flow_eq {β : Type*} (f : History → β)
    (hcons : ∀ e h h', f h = f h' → f (e :: h) = f (e :: h'))
    (hskip : ∀ e h, e.isFlow = false → f (e :: h) = f h) : f (h.filter Event.isFlow) = f h := by
  induction h with
  | nil => rfl
  | cons e h ih =>
    cases he : e.isFlow with
    | true => rw [List.filter_cons_of_pos he]; exact hcons e _ _ ih
    | false => rw [List.filter_cons_of_neg (by simp [he]), hskip e h he, ih]

theorem flow_written : History.written (h.filter Event.isFlow) = h.written :=
  flow_eq written (fun e _ _ heq => by cases e <;> simp [written, heq])
    fun e _ he => by cases e <;> first | rfl | cases he

theorem flow_taken : History.taken (h.filter Event.isFlow) = h.taken :=
  flow_eq taken (fun e _ _ heq => by cases e <;> simp [taken, heq])
    fun e _ he => by cases e <;> first | rfl | cases he

theorem flow_handed : History.handed (h.filter Event.isFlow) = h.handed :=
  flow_eq handed (fun e _ _ heq => by cases e <;> simp [handed, heq])
    fun e _ he => by cases e <;> first | rfl | cases he

theorem flow_calls : History.calls (h.filter Event.isFlow) = h.calls :=
  flow_eq calls (fun e _ _ heq => by cases e <;> simp [calls, heq])
    fun e _ he => by cases e <;> first | rfl | cases he

theorem flow_pushed : History.pushed (h.filter Event.isFlow) = h.pushed :=
  flow_eq pushed (fun e _ _ heq => by cases e <;> simp [pushed, heq])
    fun e _ he => by cases e <;> first | rfl | cases he

theorem flow_lastWritten : History.lastWritten (h.filter Event.isFlow) = h.lastWritten :=
  flow_eq lastWritten (fun e _ _ heq => by simp only [lastWritten] at heq; simp only [lastWritten, List.any_cons, heq])
    fun e _ he => by cases e <;> first | rfl | cases he

theorem flow_nativeErrors : History.nativeErrors (h.filter Event.isFlow) = h.nativeErrors :=
  flow_eq nativeErrors (fun e _ _ heq => by
    simp only [nativeErrors] at heq; simp only [nativeErrors, List.filterMap_cons, heq])
    fun e _ he => by
      cases e with
      | error e => simp [nativeErrors, Event.nativeErrorOf, show e.errno.isSome = false from he]
      | _ => rfl

theorem flow_processed : History.processed (h.filter Event.isFlow) = h.processed := by
  rw [processed, flow_calls]; rfl

theorem flow_appended : History.appended (h.filter Event.isFlow) = h.appended := by
  rw [appended, flow_calls]; rfl

theorem flow_hasFailed : History.hasFailed (h.filter Event.isFlow) = h.hasFailed := by
  rw [hasFailed, flow_calls]; rfl

/-- `close` was called only behind 'end'. -/
def ClosedAtEnd (h : History) : Prop := ∀ older, .close :: older <:+ h → .endEvent ∈ older

instance : DecidablePred ClosedAtEnd := fun h =>
  decidable_of_iff (∀ t ∈ h.tails, t.head? = some .close → .endEvent ∈ t) <| by
    constructor
    · intro ht older hs
      simpa using ht _ ((List.mem_tails _ _).mpr hs) rfl
    · intro hc t ht hhead
      obtain ⟨older, rfl⟩ := List.head?_eq_some_iff.mp hhead
      exact List.mem_cons_of_mem _ (hc older ((List.mem_tails _ _).mp ht))

end History

namespace Engine

variable {σ : Type*} {K : Coder σ} {s : Engine σ}

/-- Everything accepted, split by where it is now; no chunk was refused and no coder step
failed so far. -/
theorem Invariant.written_eq (h : s.Invariant) (hr : ¬ s.log.Refused)
    (hf : s.log.hasFailed = false) :
    s.log.written = s.log.processed ++ s.core.inFlight ++ s.vcd.buffers.flatten ++
      s.core.waiting := by
  have herr : s.core.ctx.err = .ok := by
    rw [← h.sound.coded.hasFailed]
    exact History.flow_hasFailed.trans hf
  have hw := h.sound.held.written_eq fun hr' => hr (core_refused.mp hr')
  have ht := h.sound.held.taken_eq
  have hh := (h.sound.coded.settled herr).handed_eq
  rw [hh] at ht
  rw [ht] at hw
  have e1 : s.core.log.written = s.log.written := History.flow_written
  have e2 : s.core.log.processed = s.log.processed := History.flow_processed
  rw [e1, e2] at hw
  exact hw

/-- Once a last write was made everything accepted was handed over. -/
theorem Invariant.written_of_last (h : s.Invariant) (hr : ¬ s.log.Refused)
    (hf : s.log.hasFailed = false) (hl : s.log.lastWritten = true) :
    s.log.written = s.log.processed ++ s.core.inFlight := by
  have hlast := h.sound.held.last (History.flow_lastWritten.trans hl)
  have hbuf : s.vcd.buffers.flatten = [] := hlast.2.1
  rw [h.written_eq hr hf, hbuf, hlast.2.2, List.append_nil, List.append_nil]

/-- `Finish` was called: every accepted byte has been processed. -/
theorem Invariant.written_of_finish (h : s.Invariant) (hr : ¬ s.log.Refused)
    (hf : s.log.hasFailed = false) (hq : ∃ q ∈ s.log.calls, q.isFinish = true) :
    s.log.written = s.log.processed := by
  have hcalls : s.core.log.calls = s.log.calls := History.flow_calls
  have herr : s.core.ctx.err = .ok := by
    rw [← h.sound.coded.hasFailed]
    exact History.flow_hasFailed.trans hf
  have hl : s.log.lastWritten = true := by
    rw [← History.flow_lastWritten]
    rw [← hcalls] at hq
    exact h.sound.coded.finishLast [] _ rfl hq
  have hdone : s.core.ctx.state = .done := by
    rw [h.sound.coded.tracks.stopped, hcalls]
    obtain ⟨q, hq, hfin⟩ := hq
    exact ⟨q, hq, by simp [Call.stops, hfin]⟩
  rw [h.written_of_last hr hf hl, (h.sound.coded.settled herr).late hdone, List.append_nil]

/-- At the end of the data nothing is left anywhere, and `Finish` has succeeded. -/
theorem Invariant.at_end (h : s.Invariant) (he : s.rs.ended = true) :
    ¬ s.log.Refused ∧ s.log.hasFailed = false ∧ s.log.processed = s.log.written ∧
      s.log.pushed = s.log.appended ∧ ∃ o, .finish .ok o ∈ s.log.calls := by
  have hcalls : s.core.log.calls = s.log.calls := History.flow_calls
  obtain ⟨-, hfree, -, -, herr⟩ := h.sound.control.eof he
  have hr : ¬ s.log.Refused := fun hr => by
    have := (h.sound.control.noted.refused (core_refused.mpr hr)).2.1
    rw [show s.core.eof = true from he] at this
    cases this
  have hf : s.log.hasFailed = false := by
    rw [← History.flow_hasFailed]
    exact h.sound.coded.hasFailed.mpr herr
  have hset := h.sound.coded.settled herr
  have hl := h.sound.held.finishing (.inl he)
  have hdone : s.core.ctx.state = .done := by
    refine (hset.last_iff.mp hl).resolve_right ?_
    simp [Core.lastInFlight, hfree.workReq]
  obtain ⟨q, hq, hstop⟩ := h.sound.coded.tracks.stopped.mp hdone
  have hqok := h.sound.coded.tracks.err.mp herr q hq
  have hfin : q.isFinish = true := by simpa [Call.stops, hqok] using hstop
  refine ⟨hr, hf, ?_, ?_, ?_⟩
  · exact (h.written_of_finish hr hf ⟨q, hcalls ▸ hq, hfin⟩).symm
  · have hout := hset.output
    rw [hset.empty (.inl hfree.workReq), List.append_nil] at hout
    have e1 : s.core.log.pushed = s.log.pushed := History.flow_pushed
    have e2 : s.core.log.appended = s.log.appended := History.flow_appended
    rw [← e1, ← e2, hout]
  · rw [hcalls] at hq
    cases q with
    | finish e o =>
      have : e = .ok := by
        by_contra hne
        simp [Call.failed, Call.err, hne] at hqok
      exact ⟨o, this ▸ hq⟩
    | _ => cases hfin

theorem mem_core_log {e : Event} (he : e.isFlow = true) : e ∈ s.core.log ↔ e ∈ s.log := by
  simp [core, he]

/-- Until 'end' a stream that only 'end' closes is open. -/
theorem Invariant.not_refused (h : s.Invariant) (hc : s.log.ClosedAtEnd) :
    ¬ s.log.Refused := by
  intro hr
  obtain ⟨hcl, heof, -⟩ := h.sound.control.noted.refused (core_refused.mpr hr)
  have hmem := (mem_core_log rfl).mp (h.sound.control.noted.closed.mp hcl)
  obtain ⟨newer, older, heq⟩ := List.append_of_mem hmem
  have hend : .endEvent ∈ s.log := by
    rw [heq]
    exact List.mem_append_right _ (List.mem_cons_of_mem _ (hc older ⟨newer, heq.symm⟩))
  have := h.sound.control.noted.ended ((mem_core_log rfl).mpr hend)
  rw [heof] at this
  cases this

theorem Invariant.ended (h : s.Invariant) (he : .endEvent ∈ s.log) : s.rs.ended = true :=
  h.sound.control.noted.ended ((mem_core_log rfl).mpr he)

/-- No byte is handed over behind a last write or behind `Finish`. -/
theorem Invariant.lastOnly (h : s.Invariant) (newer older : History) (heq : s.log = newer ++ older)
    (hl : older.lastWritten = true ∨ ∃ q ∈ older.calls, q.isFinish = true) :
    newer.handed = [] := by
  have hcore : s.core.log = newer.filter Event.isFlow ++ older.filter Event.isFlow := by
    rw [← List.filter_append, ← heq]; rfl
  rw [← History.flow_handed]
  refine h.sound.held.lastOnly _ _ hcore ?_
  rcases hl with hl | hl
  · exact History.flow_lastWritten.trans hl
  · refine h.sound.coded.finishLast _ _ hcore ?_
    rw [History.flow_calls]
    exact hl

/-- Input reaches the coder complete, once and in order. -/
theorem input_in_order {mode : Mode} {window : Option Number} {highWaterMark : ℤ} {x : σ}
    (hr : Reaches (step K) anyStep (init mode (minEncodeWindowSizeOf window) highWaterMark x) s)
    (hf : s.log.hasFailed = false) (hc : s.log.ClosedAtEnd) :
    -- what the coder was given is a prefix of what was written, and all of it at 'end'
    s.log.processed <+: s.log.written ∧
    (.endEvent ∈ s.log → s.log.processed = s.log.written) ∧
    -- what is taken and not handed over is less than a window
    (s.log.taken = s.log.handed ++ s.vcd.buffers.flatten ∧
      (s.vcd.buffers.flatten = [] ∨
        (Number.ofInt s.vcd.buffers.flatten.length).lt s.vcd.minEncodeWindowSize = true)) ∧
    -- `Start` once and first, `Finish` once and behind the last byte
    (s.log.calls = [] ∨ ∃ p ps, s.log.calls = p :: ps ∧ p.isStart ∧
      ∀ q ∈ ps, q.isStart = false) ∧
    (∀ before q after, s.log.calls = before ++ q :: after → q.isFinish = true →
      after = [] ∧ before.flatMap Call.data = s.log.written) ∧
    (.endEvent ∈ s.log → s.log.calls.countP Call.isStart = 1 ∧
      s.log.calls.countP Call.isFinish = 1) ∧
    -- no byte follows a last write or `Finish`
    (∀ newer older, s.log = newer ++ older →
      older.lastWritten = true ∨ (∃ q ∈ older.calls, q.isFinish = true) → newer.handed = []) := by
  have h : s.Invariant := .reaches hr
  have href := h.not_refused hc
  have hcalls : s.core.log.calls = s.log.calls := History.flow_calls
  have hproto : Protocol s.log.calls := hcalls ▸ h.sound.coded.tracks.protocol
  have hfinish : ∀ before q after, s.log.calls = before ++ q :: after → q.isFinish = true →
      after = [] ∧ before.flatMap Call.data = s.log.written := by
    intro before q after heq hfin
    have hafter := hproto.stops_only_last heq (by simp [Call.stops, hfin])
    refine ⟨hafter, ?_⟩
    rw [h.written_of_finish href hf ⟨q, by simp [heq], hfin⟩, History.processed, heq, hafter]
    cases q with
    | finish e o => simp [Call.data]
    | _ => cases hfin
  refine ⟨?_, fun he => (h.at_end (h.ended he)).2.2.1, ⟨?_, ?_⟩, hproto.start_only_first, hfinish,
    fun he => ?_, h.lastOnly⟩
  · rw [h.written_eq href hf, List.append_assoc, List.append_assoc]
    exact List.prefix_append _ _
  · have := h.sound.held.taken_eq
    have e1 : s.core.log.taken = s.log.taken := History.flow_taken
    have e2 : s.core.log.handed = s.log.handed := History.flow_handed
    rwa [e1, e2] at this
  · by_cases hb : s.vcd.buffers.flatten = []
    · exact .inl hb
    · right
      have hwin : s.vcd.minEncodeWindowSize = minEncodeWindowSizeOf window :=
        (constant_of_reaches hr).1
      have hsmall := h.sound.held.small hb
      have hn : s.core.nread = s.vcd.buffers.flatten.length := h.sound.held.nread_eq
      rw [Number.lt_eq_not_le]
      · rw [hn] at hsmall
        rw [show s.vcd.minEncodeWindowSize = s.core.window from rfl, hsmall]; rfl
      · simp [Number.ofInt]
      · rw [hwin]; exact minEncodeWindowSizeOf_ne_nan window
  · obtain ⟨-, -, -, -, o, ho⟩ := h.at_end (h.ended he)
    have hne : s.log.calls ≠ [] := fun hn => by simp [hn] at ho
    refine ⟨hproto.countP_isStart hne, ?_⟩
    obtain ⟨before, after, heq⟩ := List.append_of_mem ho
    have hafter := (hfinish before _ after heq rfl).1
    rw [heq, hafter, List.countP_append]
    have hzero : before.countP Call.isFinish = 0 := by
      rw [List.countP_eq_zero]
      intro q hq hfin
      obtain ⟨b, a, rfl⟩ := List.append_of_mem hq
      have := (hfinish b q (a ++ .finish .ok o :: after) (by simp [heq]) hfin).1
      simp at this
    rw [hzero]; rfl

/-- A coder that copies its input. -/
def copyCoder : Coder Unit where
  start x := ⟨.ok, [], x⟩
  process x data := ⟨.ok, data, x⟩
  finish x := ⟨.ok, [], x⟩

/-- Two bytes are written to an encoder, `end()` is called, and everything runs on to 'end'. -/
def copyRun : List Act :=
  [.write [1, 2], .run, .endWritable, .run, .run, .tick, .run, .run, .run, .run, .run, .run,
    .work, .afterShim, .run, .run, .run, .run, .read, .emitEnd]

theorem input_in_order_copy : ∃ s, Reaches (step copyCoder) anyStep
      (init .encode (minEncodeWindowSizeOf none) 16384 ()) s ∧
    .endEvent ∈ s.log ∧ s.log.written = [1, 2] ∧ s.log.processed = s.log.written := by
  have hrun : ∃ s, Reaches (step copyCoder) anyStep
      (init .encode (minEncodeWindowSizeOf none) 16384 ()) s ∧ .endEvent ∈ s.log ∧
      s.log.written = [1, 2] ∧ s.log.hasFailed = false ∧ s.log.ClosedAtEnd :=
    Transition.exists_reaches copyRun (by decide +kernel)
  obtain ⟨s, hr, he, hw, hf, hc⟩ := hrun
  exact ⟨s, hr, he, hw, (input_in_order hr hf hc).2.1 he⟩

end Engine

/-! ## Closing against native work -/

def Event.startsWrite : Event → Bool
  | .nativeWrite _ _ => true
  | _ => false

/-- The output of a native write is pushed, or its error is emitted. -/
def Event.completesWrite : Event → Bool
  | .push _ => true
  | .error e => e.errno.isSome
  | _ => false

namespace Core

variable {σ : Type*} {K : Coder σ} {c c' : Core σ}

/-- The native writes started are those completed and the one in flight. -/
def Balanced (c : Core σ) : Prop :=
  c.log.countP Event.startsWrite =
    c.log.countP Event.completesWrite + c.ctx.workReq.toList.length

theorem Balanced.congr (h : c.Balanced) (new : History) (hlog : c'.log = new ++ c.log)
    (hn : ∀ e ∈ new, e.startsWrite = false ∧ e.completesWrite = false)
    (hw : c'.ctx.workReq = c.ctx.workReq) : c'.Balanced := by
  have h1 : new.countP Event.startsWrite = 0 :=
    List.countP_eq_zero.mpr fun e he => by simp [(hn e he).1]
  have h2 : new.countP Event.completesWrite = 0 :=
    List.countP_eq_zero.mpr fun e he => by simp [(hn e he).2]
  unfold Balanced at h ⊢
  rw [hlog, hw, List.countP_append, List.countP_append, h1, h2, h]
  omega

theorem Balanced.close (h : c.Balanced) : c.close.Balanced := by
  have hw := (VcdCtx.sameWork_close c.ctx).workReq
  unfold Core.close
  dsimp only
  split
  · exact h.congr [.close] rfl (by simp [Event.startsWrite, Event.completesWrite]) rfl
  · split
    · exact h.congr [.nativeClose, .close] rfl
        (by simp [Event.startsWrite, Event.completesWrite]) hw
    · exact h.congr [.close] rfl (by simp [Event.startsWrite, Event.completesWrite]) rfl

theorem Balanced.call (h : c.Balanced) (hs : c.Sound) {call : Calling}
    (hc : c.calling = some call) (forceFlush : Bool) :
    (c.runCalling call forceFlush).Balanced := by
  have hat := hs.control.called hc
  rw [runCalling_eq hat hs.control.flags]
  have hnone : c.ctx.workReq = none := hat.2.1.workReq
  split
  · have hd := c.turnedDown call
    exact h.congr [.transformCb call.callback false] hd.log
      (by simp [Event.startsWrite, Event.completesWrite]) (by rw [hd.ctx])
  · have hlog : ((c.begin call).take (c.chunkOf call)).log = .take (c.chunkOf call) :: c.log := by
      cases call <;> rfl
    unfold Core.running
    dsimp only
    split
    · unfold Balanced at h ⊢
      simp only [submit, hlog]
      rw [List.countP_cons_of_pos rfl, List.countP_cons_of_neg (by simp [Event.startsWrite]),
        List.countP_cons_of_neg (by simp [Event.completesWrite]),
        List.countP_cons_of_neg (by simp [Event.completesWrite]), h, hnone]
      rfl
    · refine h.congr [.take (c.chunkOf call)] ?_
        (by simp [Event.startsWrite, Event.completesWrite]) ?_ <;> cases call <;> rfl

theorem Balanced.step (h : c.Balanced) (hs : c.Sound) (hstep : c.Step K c') : c'.Balanced := by
  cases hstep with
  | same => exact h
  | accept req wants =>
    refine h.congr [.accept req.chunk] ?_ (by simp [Event.startsWrite, Event.completesWrite]) ?_ <;>
      (unfold Core.accept; dsimp only; split <;> rfl)
  | next | demand | ending | finish | workFail => exact h.congr [] rfl (by simp) rfl
  | close => exact h.close
  | endEvent =>
    exact Balanced.close (h.congr [.endEvent] rfl
      (by simp [Event.startsWrite, Event.completesWrite]) rfl)
  | call forceFlush hc => exact h.call hs hc forceFlush
  | settle k _ hk =>
    obtain ⟨-, -, -, -, hctx, hlog⟩ := (hs.control.waits hk).settle
    exact h.congr [_] hlog (by simp [Event.startsWrite, Event.completesWrite]) (by rw [hctx])
  | @work w ctx calls hw hd hp =>
    obtain ⟨ctx', rfl, hdone, -⟩ := hs.worked hw hd hp
    exact h.congr [.work calls] rfl (by simp [Event.startsWrite, Event.completesWrite])
      hdone.workReq
  | report _ hw =>
    obtain ⟨w, hw⟩ := Option.isSome_iff_exists.mp hw
    unfold Balanced at h ⊢
    simp only [Core.report, note]
    rw [List.countP_cons_of_neg (by simp [Event.startsWrite]), List.countP_cons_of_pos rfl, h, hw]
    rfl
  | @deliver k _ hw =>
    obtain ⟨w, hw⟩ := Option.isSome_iff_exists.mp hw
    have hlog : (c.deliver k).log = .push c.ctx.outputBuffer :: c.log := by cases k <;> rfl
    have hreq : (c.deliver k).ctx.workReq = none := by cases k <;> rfl
    unfold Balanced at h ⊢
    rw [hlog, hreq, List.countP_cons_of_neg (by simp [Event.startsWrite]),
      List.countP_cons_of_pos rfl, h, hw]
    rfl
  | afterCallback => exact h.congr [] rfl (by simp) (VcdCtx.sameWork_afterCallback c.ctx).workReq
  | afterOnerror => exact h.congr [] rfl (by simp) (VcdCtx.sameWork_afterOnerror c.ctx).workReq

end Core

namespace Engine

variable {σ : Type*} {K : Coder σ} {s : Engine σ}

theorem balanced_of_reaches {mode : Mode} {m : Number} {h : ℤ} {x : σ}
    (hr : Reaches (step K) anyStep (init mode m h x) s) : s.core.Balanced := by
  induction hr with
  | refl => rfl
  | tail hr _ hs ih => exact ih.step (Invariant.reaches hr).sound ((Invariant.reaches hr).core_step hs)

/-- A native write counts as in flight from its start until `AfterShim` has returned. -/
def writeInFlight (s : Engine σ) : Prop :=
  s.ctx.workReq.isSome ∨ .afterShim ∈ s.stack ∨ .sendError ∈ s.stack

/-- No assertion fails, one native write at most is in flight, its coder stays alive, and a
requested close is carried out as soon as nothing is in flight. -/
theorem close_waits_for_work {mode : Mode} {m : Number} {h : ℤ} {x : σ}
    (hr : Reaches (step K) anyStep (init mode m h x) s) :
    s.fault = none ∧
    s.log.countP Event.startsWrite ≤ s.log.countP Event.completesWrite + 1 ∧
    (s.ctx.workReq.isSome → s.log.countP Event.startsWrite =
      s.log.countP Event.completesWrite + 1 ∧ s.ctx.writeInProgress = true) ∧
    (s.ctx.workReq.isSome ∨ s.ctx.writeInProgress = true → s.ctx.coder.isSome) ∧
    (.nativeClose ∈ s.log → ¬ s.writeInFlight →
      s.ctx.coder = none ∧ s.ctx.pendingClose = false) := by
  have hi : s.Invariant := .reaches hr
  have hf := hi.sound.control.flags
  have hb := balanced_of_reaches hr
  have hcount : ∀ p : Event → Bool, (∀ e, p e = true → e.isFlow = true) →
      s.core.log.countP p = s.log.countP p := by
    intro p hp
    simp only [core, List.countP_filter]
    refine List.countP_congr fun e _ => ?_
    simp only [Bool.and_eq_true]
    exact ⟨And.left, fun he => ⟨he, hp e he⟩⟩
  have h1 := hcount Event.startsWrite fun e he => by cases e <;> first | rfl | cases he
  have h2 := hcount Event.completesWrite fun e he => by
    cases e <;> first | rfl | cases he | exact he
  unfold Core.Balanced at hb
  rw [h1, h2] at hb
  have hreq : s.core.ctx.workReq = s.ctx.workReq := rfl
  have hwip : s.ctx.workReq.isSome → s.ctx.writeInProgress = true := fun hw =>
    hf.inProgress.trans (by rw [hreq, hw]; rfl)
  refine ⟨hf.fault, ?_, fun hw => ⟨?_, hwip hw⟩, ?_, ?_⟩
  · have : s.core.ctx.workReq.toList.length ≤ 1 := by
      cases s.core.ctx.workReq <;> simp
    omega
  · obtain ⟨w, hw⟩ := Option.isSome_iff_exists.mp hw
    rw [hb, hreq, hw]
    rfl
  · rintro (hw | hw)
    · exact hf.coder (hwip hw)
    · exact hf.coder hw
  · intro hm hno
    simp only [writeInFlight, not_or] at hno
    have ha : s.core.afterShim = 0 := List.count_eq_zero_of_not_mem hno.2.1
    have he : s.core.sendError = 0 := List.count_eq_zero_of_not_mem hno.2.2
    have hnw : s.ctx.writeInProgress = false := by
      have := hf.inProgress
      rw [hreq, he, Option.not_isSome_iff_eq_none.mp hno.1] at this
      exact this
    have hp : s.ctx.pendingClose = false := by
      by_contra hne
      rcases hf.pending (Bool.not_eq_false _ ▸ hne : s.ctx.pendingClose = true) with hw | hs
      · have hw' : s.ctx.writeInProgress = true := hw
        rw [hnw] at hw'
        cases hw'
      · omega
    refine ⟨?_, hp⟩
    rcases hi.sound.control.noted.requested ((mem_core_log rfl).mpr hm) with hq | hq
    · have hq' : s.ctx.pendingClose = true := hq
      rw [hp] at hq'
      cases hq'
    · exact hq

/-- Closed in the middle of a write, the coder goes when the write is through. -/
theorem close_waits_for_work_copy : ∃ s, Reaches (step copyCoder) anyStep
      (init .decode (minEncodeWindowSizeOf none) 16384 ()) s ∧ .push [1] ∈ s.log ∧
    s.ctx.coder = none ∧ s.ctx.pendingClose = false := by
  have hrun : ∃ s, Reaches (step copyCoder) anyStep
      (init .decode (minEncodeWindowSizeOf none) 16384 ()) s ∧ .push [1] ∈ s.log ∧
      .nativeClose ∈ s.log ∧ s.ctx.workReq.isSome = false ∧ s.stack = [] :=
    Transition.exists_reaches [.write [1], .run, .close false, .work, .afterShim, .run, .run,
      .run, .run, .run, .run, .run] (by decide +kernel)
  obtain ⟨s, hr, hp, hc, hw, hs⟩ := hrun
  exact ⟨s, hr, hp, (close_waits_for_work hr).2.2.2.2 hc (by simp [writeInFlight, hw, hs])⟩

end Engine

end NodeVcdiff
