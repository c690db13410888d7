import NodeVcdiff.Finishing

/-!
# Failing coder steps

'end' is emitted only for complete input, and the first failing coder step stops the stream:
its write delivers nothing, nothing is started behind it, and its error is reported once.
-/

namespace NodeVcdiff

open Script (Number)
open Transition (Reaches anyStep Inevitable)

variable {σ : Type*} {K : Coder σ}

namespace History

/-- Quiet events push nothing. -/
theorem pushed_quiet {newer older : History} (hq : ∀ e ∈ newer, e.isQuiet = true) :
    History.pushed (newer ++ older) = older.pushed := by
  induction newer with
  | nil => rfl
  | cons e newer ih =>
    have he := hq e List.mem_cons_self
    have hrest := ih fun e' he' => hq e' (List.mem_cons_of_mem _ he')
    cases e with
    | push o => cases he
    | _ => exact hrest

theorem mem_calls {newer older : History} {calls : List Call} {q : Call} (hq : q ∈ calls) :
    q ∈ History.calls (newer ++ .work calls :: older) := by
  induction newer with
  | nil => exact List.mem_append_right _ hq
  | cons e newer ih =>
    cases e with
    | work cs => exact List.mem_append_left _ ih
    | _ => exact ih

/-- A call was received in some execution of `Process`. -/
theorem exists_work {h : History} {q : Call} (hq : q ∈ h.calls) :
    ∃ newer calls older, h = newer ++ .work calls :: older ∧ q ∈ calls := by
  induction h with
  | nil => cases hq
  | cons e h ih =>
    have hcons : q ∈ calls h → ∃ newer calls older,
        e :: h = newer ++ .work calls :: older ∧ q ∈ calls := fun hq => by
      obtain ⟨newer, cs, older, rfl, hm⟩ := ih hq
      exact ⟨e :: newer, cs, older, rfl, hm⟩
    cases e with
    | work cs =>
      rcases List.mem_append.mp hq with hq | hq
      · exact hcons hq
      · exact ⟨[], cs, h, rfl, hq⟩
    | _ => exact hcons hq

/-- What was appended before is the beginning of what was appended. -/
theorem appended_isPrefix (newer older : History) :
    older.appended <+: History.appended (newer ++ older) := by
  induction newer with
  | nil => exact List.prefix_rfl
  | cons e newer ih =>
    cases e with
    | work cs =>
      refine ih.trans ?_
      show (calls (newer ++ older)).flatMap Call.out <+: (calls (newer ++ older) ++ cs).flatMap Call.out
      rw [List.flatMap_append]
      exact List.prefix_append _ _
    | _ => exact ih

end History

namespace Engine

variable {s t : Engine σ}

/-- Along a run the history only grows. -/
theorem Invariant.run {ok : Engine σ → Act → Prop} (h : s.Invariant)
    (hr : Reaches (Engine.step K) ok s t) : t.Invariant ∧ s.log <:+ t.log := by
  induction hr with
  | refl => exact ⟨h, List.suffix_rfl⟩
  | tail _ _ hs ih => exact ⟨ih.1.step hs, ih.2.trans (step_log ih.1.shape hs)⟩

/-- What a failing execution of `Process` leaves behind. -/
theorem Invariant.failure (h : s.Invariant) {newer older : History} {calls : List Call}
    {q : Call} (heq : s.log = newer ++ .work calls :: older) (hq : q ∈ calls)
    (hf : q.failed = true) :
    (∀ e ∈ newer, e.isQuiet = true) ∧ s.log.pushed = older.appended ∧
      s.log.nativeErrors = if s.ctx.workReq.isSome then [] else [nativeError q.err] := by
  have hcore : s.core.log = newer.filter Event.isFlow ++ .work calls ::
      older.filter Event.isFlow := by
    rw [show s.core.log = s.log.filter Event.isFlow from rfl, heq, List.filter_append]
    rfl
  obtain ⟨-, hquiet, -, hpushed, herrors⟩ := h.sound.coded.failure _ _ _ hcore ⟨q, hq, hf⟩
  have hmem : q ∈ s.core.log.calls := by
    rw [show s.core.log.calls = s.log.calls from History.flow_calls, heq]
    exact History.mem_calls hq
  have herr : q.err = s.core.ctx.err := h.sound.coded.errorOf q hmem hf
  refine ⟨fun e he => ?_, ?_, ?_⟩
  · cases hflow : e.isFlow with
    | true => exact hquiet e (List.mem_filter.mpr ⟨he, hflow⟩)
    | false => cases e <;> first | rfl | cases hflow
  · rw [← History.flow_pushed, ← History.flow_appended]
    exact hpushed
  · rw [herr, ← History.flow_nativeErrors]
    exact herrors

/-- What is pushed was appended by the coder. -/
theorem Invariant.pushed_isPrefix (h : s.Invariant) : s.log.pushed <+: s.log.appended := by
  cases hf : s.log.hasFailed with
  | false =>
    have hfail : s.core.log.hasFailed = false := by
      rw [History.hasFailed, show s.core.log.calls = s.log.calls from History.flow_calls]
      exact hf
    have hout := (h.sound.coded.settled (h.sound.coded.hasFailed.mp hfail)).output
    have e1 : s.core.log.pushed = s.log.pushed := History.flow_pushed
    have e2 : s.core.log.appended = s.log.appended := History.flow_appended
    rw [e1, e2] at hout
    exact ⟨_, hout⟩
  | true =>
    obtain ⟨q, hq, hqf⟩ : ∃ q ∈ s.log.calls, q.failed = true := by
      simpa [History.hasFailed] using hf
    obtain ⟨newer, calls, older, heq, hm⟩ := History.exists_work hq
    rw [(h.failure heq hm hqf).2.1, heq, List.append_cons]
    exact History.appended_isPrefix _ older

/-- 'end' means complete, and a failing coder step stops the stream with one error. -/
theorem failures_contained {mode : Mode} {m : Number} {highWaterMark : ℤ} {x : σ}
    (hr : Reaches (step K) anyStep (init mode m highWaterMark x) s) :
    (.endEvent ∈ s.log →
      s.log.processed = s.log.written ∧ ∃ o, .finish .ok o ∈ s.log.calls) ∧
    ∀ (newer : History) (calls : List Call) (older : History) (q : Call),
      s.log = newer ++ .work calls :: older → q ∈ calls → q.failed = true →
      -- no chunk is taken, no native write issued, no callback called, 'end' not emitted
      (∀ e ∈ newer, e.isQuiet = true) ∧
      -- pushed is what the writes before the failing one appended
      (s.log.pushed = older.pushed ∧ older.pushed = older.appended) ∧
      -- the error is reported when the failing write completes, once, and it does complete
      s.log.nativeErrors = (if s.ctx.workReq.isSome then [] else [nativeError q.err]) ∧
      Inevitable (Progress K) (fun t => t.log.nativeErrors = [nativeError q.err]) s := by
  have h : s.Invariant := .reaches hr
  refine ⟨fun he => ?_, fun newer calls older q heq hq hf => ?_⟩
  · obtain ⟨-, -, hp, -, hfin⟩ := h.at_end (h.ended he)
    exact ⟨hp, hfin⟩
  · obtain ⟨hquiet, hpushed, herrors⟩ := h.failure heq hq hf
    have hold : s.log.pushed = older.pushed := by rw [heq, History.pushed_quiet hquiet]; rfl
    refine ⟨hquiet, ⟨hold, hold.symm.trans hpushed⟩, herrors, ?_⟩
    refine h.comes_to_rest.imp fun t ⟨hrest, hi, hrun⟩ => ?_
    obtain ⟨new, hnew⟩ := (h.run hrun).2
    have heq' : t.log = (new ++ newer) ++ .work calls :: older := by
      rw [← hnew, heq, List.append_assoc]
    have herr := (hi.failure heq' hq hf).2.2
    rwa [hrest.workReq] at herr

/-- A coder that fails on every non-empty buffer. -/
def brokenCoder : Coder Unit where
  start x := ⟨.ok, [], x⟩
  process x data := ⟨if data.isEmpty then .ok else .encodeError, [], x⟩
  finish x := ⟨.ok, [], x⟩

theorem failures_contained_broken : ∃ s q, Reaches (step brokenCoder) anyStep
      (init .encode (minEncodeWindowSizeOf none) 16384 ()) s ∧ q ∈ s.log.calls ∧
    q.failed = true ∧
    Inevitable (Progress brokenCoder) (fun t => t.log.nativeErrors = [nativeError q.err]) s := by
  have hrun : ∃ s, Reaches (step brokenCoder) anyStep
      (init .encode (minEncodeWindowSizeOf none) 16384 ()) s ∧ s.log.hasFailed = true ∧
      s.ctx.workReq.isSome := Transition.exists_reaches
    [.write [1], .run, .endWritable, .run, .run, .tick, .run, .run, .run, .run, .run, .run, .work]
    (by decide +kernel)
  obtain ⟨s, hr, hf, -⟩ := hrun
  obtain ⟨newer, calls, older, heq, q, hq, hqf⟩ := History.exists_failing hf
  refine ⟨s, q, hr, ?_, hqf, ((failures_contained hr).2 newer calls older q heq hq hqf).2.2.2⟩
  rw [heq]
  exact History.mem_calls hq

end Engine

end NodeVcdiff
