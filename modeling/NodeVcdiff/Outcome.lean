import NodeVcdiff.Feeding
import NodeVcdiff.Failures
import NodeVcdiff.Notes

/-!
# The outcome of a stream

A stream that ends, and one that fails, does what the coder does when it is started, fed the
written bytes in some chunks and finished.
-/

namespace NodeVcdiff

open Script (Number)
open Transition (Reaches anyStep Inevitable)

variable {σ : Type*} {K : Coder σ} {x : σ}

namespace Engine

variable {s : Engine σ} {mode : Mode} {m : Number} {highWaterMark : ℤ}
  {ok : Engine σ → Act → Prop}

theorem fed_of_reaches (hr : Reaches (step K) ok (init mode m highWaterMark x) s) :
    Core.Fed K x s.core := by
  induction hr with
  | refl =>
    refine ⟨⟨x, .nil, fun z hz => ?_⟩, List.prefix_rfl, fun _ => rfl, fun ⟨q, hq, _⟩ => ?_,
      fun ⟨q, hq, _⟩ => ?_⟩
    · exact (Option.some.inj hz).symm
    · cases hq
    · cases hq
  | tail hr _ hs ih =>
    exact ih.step (Invariant.reaches hr).sound ((Invariant.reaches hr).core_step hs)

/-- The chunks handed over come from chunks accepted so far. -/
theorem composed_of_reaches (hr : Reaches (step K) ok (init mode m highWaterMark x) s)
    {P : Buffer → Prop} (h0 : P []) (hP : ∀ b, .accept b ∈ s.log → P b) :
    Core.Composed P s.core := by
  induction hr with
  | refl => exact ⟨by simp [core, init], by simp [core, init], by simp [core, init, History.handedBuffers]⟩
  | tail hr _ hs ih =>
    have hi := Invariant.reaches hr
    refine (ih fun b hb => hP b ((step_log hi.shape hs).mem hb)).step h0 hi.sound
      (hi.core_step hs) fun b hb => hP b ((mem_core_log rfl).mp hb)

/-- What was handed over was written before. -/
theorem Invariant.handed_isPrefix (h : s.Invariant) (hr : ¬ s.log.Refused) :
    s.log.handed <+: s.log.written := by
  have hw := h.sound.held.written_eq fun hr' => hr (core_refused.mp hr')
  have ht := h.sound.held.taken_eq
  have e1 : s.core.log.handed = s.log.handed := History.flow_handed
  have e2 : s.core.log.written = s.log.written := History.flow_written
  rw [ht, e1, e2, List.append_assoc] at hw
  exact hw ▸ List.prefix_append _ _

/-- A stream that has ended did what the coder does with its chunks. -/
theorem run_of_ended (hr : Reaches (step K) ok (init mode m highWaterMark x) s)
    (he : .endEvent ∈ s.log) : K.run x (Call.chunks s.log.calls) = .ok s.log.pushed ∧
      (Call.chunks s.log.calls).flatten = s.log.written := by
  have h : s.Invariant := .reaches hr
  obtain ⟨y, ht, -⟩ := (fed_of_reaches hr).trace
  have hcalls : s.core.log.calls = s.log.calls := History.flow_calls
  obtain ⟨-, hf, hproc, hpush, o, ho⟩ := h.at_end (h.ended he)
  rw [hcalls] at ht
  have hproto : Protocol s.log.calls := hcalls ▸ h.sound.coded.tracks.protocol
  refine ⟨?_, ?_⟩
  · rw [ht.run_finished hproto ho rfl, hpush]
    · rfl
    · simpa [History.hasFailed] using hf
  · rw [Coder.flatten_chunks]
    exact hproc

/-- After a failure the coder does not see what follows, which nothing does once it was
finished. -/
theorem run_append_of_failed (hr : Reaches (step K) ok (init mode m highWaterMark x) s)
    (hf : s.log.hasFailed = true) (rest : List Buffer)
    (hrest : (∃ q ∈ s.log.calls, q.isFinish = true) → rest = []) :
    K.run x (Call.chunks s.log.calls ++ rest) = .error s.ctx.err := by
  have h : s.Invariant := .reaches hr
  obtain ⟨y, ht, -⟩ := (fed_of_reaches hr).trace
  have hcalls : s.core.log.calls = s.log.calls := History.flow_calls
  have hproto : Protocol s.log.calls := hcalls ▸ h.sound.coded.tracks.protocol
  obtain ⟨q, hq, hqf⟩ : ∃ q ∈ s.log.calls, q.failed = true := by
    simpa [History.hasFailed] using hf
  have herr : q.err = s.ctx.err := h.sound.coded.errorOf q (hcalls ▸ hq) hqf
  rw [hcalls] at ht
  rw [← herr]
  exact ht.run_failed hproto hq hqf rest hrest

/-- A stream whose coder has failed did what the coder does with its chunks and one more,
which holds what it did not get to see. -/
theorem run_of_failed (hr : Reaches (step K) ok (init mode m highWaterMark x) s)
    (href : ¬ s.log.Refused) (hf : s.log.hasFailed = true) : ∃ rest,
      K.run x (Call.chunks s.log.calls ++ rest) = .error s.ctx.err ∧
      (Call.chunks s.log.calls ++ rest).flatten = s.log.written ∧ rest.length ≤ 1 := by
  have h : s.Invariant := .reaches hr
  have hfed := fed_of_reaches hr
  have hcalls : s.core.log.calls = s.log.calls := History.flow_calls
  by_cases hfin : ∃ r ∈ s.log.calls, r.isFinish = true
  · refine ⟨[], run_append_of_failed hr hf [] fun _ => rfl, ?_, by simp⟩
    have hlast : s.core.log.lastWritten = true :=
      h.sound.coded.finishLast [] _ rfl (hcalls.symm ▸ hfin)
    obtain ⟨-, hbuf, hwait⟩ := h.sound.held.last hlast
    have hw := h.sound.held.written_eq fun hr' => href (core_refused.mp hr')
    rw [h.sound.held.taken_eq, hbuf, hwait, List.append_nil, List.append_nil,
      ← hfed.finished (hcalls.symm ▸ hfin)] at hw
    have e1 : s.core.log.written = s.log.written := History.flow_written
    have e2 : s.core.log.processed = s.log.processed := History.flow_processed
    rw [List.append_nil, Coder.flatten_chunks, ← e1, hw, e2]
    rfl
  · have hpre : (Call.chunks s.log.calls).flatten <+: s.log.written := by
      refine List.IsPrefix.trans ?_ (h.handed_isPrefix href)
      have e1 : s.core.log.handed = s.log.handed := History.flow_handed
      obtain ⟨t, ht⟩ := hfed.isPrefix
      rw [← e1, ← History.flatten_handedBuffers, ← ht, hcalls, List.flatten_append]
      exact List.prefix_append _ _
    obtain ⟨rest, hrest⟩ := hpre
    refine ⟨[rest], run_append_of_failed hr hf [rest] fun hx => absurd hx hfin, ?_, by simp⟩
    rw [List.flatten_append, List.flatten_singleton, hrest]

theorem Invariant.ending_run {t : Engine σ} (h : s.Invariant)
    (hr : Reaches (Engine.step K) ok s t) (he : s.ws.ending = true) : t.ws.ending = true := by
  induction hr with
  | refl => exact he
  | tail hr _ hs ih => exact ((h.run hr).1.core_step hs).ending_mono ih

/-- How a run turned out: ended without an error, or failed with one error. -/
def Settles (s : Engine σ) : Prop :=
  .endEvent ∈ s.log ∧ (∀ e, .error e ∉ s.log) ∨
    s.log.hasFailed = true ∧ s.log.nativeErrors = [nativeError s.ctx.err]

/-- The steps of `ok`, and those without the user. -/
def orOwn (ok : Engine σ → Act → Prop) (s : Engine σ) (a : Act) : Prop := ok s a ∨ a.onItsOwn s

/-- A stream that was ended, is closed by 'end' only and is not written to any more settles. -/
theorem settles (hok : ∀ s a, ok s a → a.inTime s)
    (hr : Reaches (step K) ok (init mode m highWaterMark x) s) (hc : s.log.ClosedAtEnd)
    (he : s.ws.ending = true) :
    Inevitable (Progress K) (fun t => Reaches (step K) (orOwn ok) (init mode m highWaterMark x) t ∧
      (∀ c, .accept c ∈ t.log → .accept c ∈ s.log ∨ c = []) ∧ t.log.written = s.log.written ∧
      t.log.ClosedAtEnd ∧ t.Settles) s := by
  have h : s.Invariant := .reaches hr
  refine h.comes_to_rest.imp fun t ⟨hq, hi, hown⟩ => ?_
  have hrt : Reaches (step K) (orOwn ok) (init mode m highWaterMark x) t :=
    (hr.mono fun _ _ => .inl).trans (hown.mono fun _ _ => .inr)
  obtain ⟨hacc, hw, hclosed⟩ := own_run hown
  have hct := hclosed hc
  have href := hi.not_refused hct
  have hend : t.ws.ending = true := h.ending_run hown he
  refine ⟨hrt, hacc, hw, hct, ?_⟩
  obtain ⟨hpur, hhead⟩ := on_its_way hrt
  refine (hq.outcome hi hpur (hhead.resolve_left href) href hend).imp_left fun ⟨hf, he⟩ => ⟨he, ?_⟩
  refine hi.no_error hf href (raises_of_reaches (fun s a ha => ?_) hrt)
  exact ha.elim (hok s a) Act.inTime_of_own

end Engine

end NodeVcdiff
