import NodeVcdiff.Draining
import NodeVcdiff.Notes

/-!
# Flush callbacks are called once

When 'end' was emitted and nothing is left to run, the callbacks passed to `flush` have been
called, if no `end()` has left one of them behind on 'drain'.
-/

namespace NodeVcdiff

open Script (Number)
open Transition (Reaches anyStep)

namespace Engine

variable {σ : Type*} {K : Coder σ} {s s' s'' : Engine σ} {a : Act} {mode : Mode} {m : Number}
  {h : ℤ} {x : σ}

/-! ## Callbacks parked on 'end' -/

/-- If the stream has ended before the step from `s` to `s'`, nothing was parked on 'end'. -/
structure Listens (s s' : Engine σ) : Prop where
  ended : s.ws.ended = true → s'.ws.ended = true
  endListeners : s.ws.ended = true → s'.endListeners = s.endListeners ∨ s'.endListeners = []

theorem Listens.of_eq (hd : s'.ws.ended = s.ws.ended)
    (hl : s'.endListeners = s.endListeners) : Listens s s' :=
  ⟨fun h => hd.trans h, fun _ => .inl hl⟩

theorem Listens.after {t : Engine σ} (h' : Listens t s') (h : Listens s t) : Listens s s' := by
  refine ⟨fun hd => h'.ended (h.ended hd), fun hd => ?_⟩
  rcases h'.endListeners (h.ended hd) with he | he
  · rw [he]; exact h.endListeners hd
  · exact .inr he

theorem listens_callUser (callback : Option ℕ) (ok : Bool) :
    Listens s (s.callUser callback ok) := by
  cases callback <;> exact .of_eq rfl rfl

theorem listens_close (callback : Option ℕ) : Listens s (s.close callback) := by
  cases callback <;> cases hc : s.vcd.closed <;> cases hh : s.vcd.handle <;>
    exact .of_eq (by simp [Engine.close, hc, hh, note, nextTick])
      (by simp [Engine.close, hc, hh, note, nextTick])

theorem listens_write (req : WriteReq) : Listens s (s.write req) := by
  unfold Engine.write writeOrBuffer doWrite
  dsimp only
  split
  · exact .of_eq rfl rfl
  · split <;> exact .of_eq rfl rfl

theorem listens_flush (callback : Option ℕ) : Listens s (s.flush callback) := by
  unfold Engine.flush
  split
  · cases callback <;> exact .of_eq rfl rfl
  · next hd =>
    split
    · cases callback
      · exact .of_eq rfl rfl
      · exact ⟨fun he => absurd he hd, fun he => absurd he hd⟩
    · split
      · exact .of_eq rfl rfl
      · exact (listens_write _).after (.of_eq rfl rfl)

theorem listens_onwrite (er : Option ErrorObject) (sync : Bool) :
    Listens s (s.onwrite er sync) := by
  unfold onwrite
  split
  · exact .of_eq rfl rfl
  · dsimp only
    split
    · split
      · exact .of_eq rfl rfl
      · exact (listens_callUser _ _).after (.of_eq rfl rfl)
    · split <;> exact .of_eq rfl rfl

theorem listens_transformCb (k : TransformCb) (er : Option ErrorObject) (sync : Bool) :
    Listens s (s.transformCb k er sync) := by
  unfold transformCb
  split
  · exact (listens_onwrite _ _).after (.of_eq rfl rfl)
  · exact .of_eq rfl rfl
  · exact .of_eq rfl rfl

theorem listens_runCalling (c : Calling) : Listens s (s.runCalling c) := by
  have hchunk : ∀ (t : Engine σ) (d : Buffer) (l ff : Bool) (k : TransformCb),
      Listens t (t.processChunk d l ff k) := by
    intro t d l ff k
    unfold processChunk nativeWrite
    dsimp only
    split
    · split
      · exact .of_eq rfl rfl
      · split <;> exact .of_eq rfl rfl
    · exact .of_eq rfl rfl
  have htransform : ∀ (t : Engine σ) (d : Buffer) (b sync : Bool) (k : TransformCb),
      Listens t (t.transform d b sync k) := by
    intro t d b sync k
    unfold transform
    dsimp only
    split
    · exact listens_transformCb _ _ _
    · refine (hchunk _ _ _ _ _).after ?_
      split <;> exact .of_eq rfl rfl
  cases c with
  | transform sync =>
    simp only [runCalling]
    split
    · exact (htransform _ _ _ _ _).after (.of_eq rfl rfl)
    · exact .of_eq rfl rfl
  | flush => exact (htransform _ _ _ _ _).after (.of_eq rfl rfl)

theorem listens_afterShim : Listens s s.afterShim := by
  unfold afterShim
  dsimp only
  split
  · exact .of_eq rfl rfl
  · split
    · unfold callback
      split <;> exact .of_eq rfl rfl
    · exact .of_eq rfl rfl

theorem listens_runFrame (f : Frame) : Listens s (s.runFrame f) := by
  cases f with
  | user | emitError | afterShim | sendError => exact .of_eq rfl rfl
  | cb k => exact listens_transformCb _ _ _
  | clearBuffer =>
    simp only [Engine.runFrame]
    split <;> exact .of_eq rfl rfl
  | afterWrite finished callback =>
    simp only [Engine.runFrame]
    split <;> exact .of_eq rfl rfl
  | drain listeners =>
    cases listeners with
    | nil => exact .of_eq rfl rfl
    | cons callback rest => exact (listens_flush _).after (.of_eq rfl rfl)
  | writeCb callback => exact (listens_callUser _ _).after (.of_eq rfl rfl)
  | finishMaybe =>
    simp only [Engine.runFrame]
    split <;> exact .of_eq rfl rfl
  | ended => exact ⟨fun _ => rfl, fun _ => .inl rfl⟩
  | endListeners ids =>
    cases ids with
    | nil => exact .of_eq rfl rfl
    | cons id ids => exact (listens_callUser (some id) true).after (.of_eq rfl rfl)

theorem listens_emitEnd : Listens s s.emitEnd := by
  refine (listens_close none).after (t := { s with
    rs.endEmitted := true, endListeners := []
    stack := .user :: .endListeners s.endListeners :: s.stack
    log := .endEvent :: s.log }) ?_
  exact ⟨id, fun _ => .inr rfl⟩

theorem listens_step (hs : step K s a = some s') : Listens s s' := by
  obtain ⟨-, hm⟩ := step_moves hs
  cases hm with
  | work | workFail => exact .of_eq rfl rfl
  | afterShim => exact listens_afterShim
  | @tick t ts =>
    have hpop : Listens s { s with ticks := ts } := .of_eq rfl rfl
    cases t with
    | transformCb k => exact (listens_transformCb _ _ _).after hpop
    | flushCb id => exact (listens_callUser (some id) true).after hpop
    | writeError callback => exact (listens_callUser callback false).after hpop
    | closeCb id => exact .of_eq rfl rfl
    | emitClose => exact .of_eq rfl rfl
  | emitEnd => exact listens_emitEnd
  | calling => exact listens_runCalling _
  | @frame f fs => exact (listens_runFrame f).after (t := { s with stack := fs }) (.of_eq rfl rfl)
  | user =>
    cases a with
    | write chunk => exact listens_write _
    | flush hasCallback =>
      cases hasCallback
      · exact listens_flush _
      · exact (listens_flush _).after (t := ({ s with nextFlush := s.nextFlush + 1 } : Engine σ).note
          (.flush s.nextFlush)) (.of_eq rfl rfl)
    | endWritable =>
      simp only [userCall, endWritable]
      split <;> exact .of_eq rfl rfl
    | close hasCallback =>
      cases hasCallback
      · exact listens_close none
      · exact (listens_close (some s.nextClose)).after
          (t := { s with nextClose := s.nextClose + 1 }) (.of_eq rfl rfl)
    | _ => exact .of_eq rfl rfl

/-- At the event loop the stack holds at most the native call that waits for the ticks. -/
theorem Shape.stack_of_loop (h : s.Shape) (hl : s.atLoop = true) :
    s.stack = [] ∨ s.stack = [.afterShim] ∨ s.stack = [.sendError] := by
  cases hst : s.stack with
  | nil => exact .inl rfl
  | cons f fs =>
    have hf : f = .afterShim ∨ f = .sendError := by
      simp only [atLoop, hst, Bool.and_eq_true] at hl
      cases f <;> simp_all
    cases fs with
    | nil => exact hf.elim (fun h => .inr (.inl (by rw [h]))) fun h => .inr (.inr (by rw [h]))
    | cons g gs =>
      have hb := h.bottom f (by rw [hst]; simp)
      exact absurd hf (not_or.mpr hb)

theorem Shape.ended_of_loop (h : s.Shape) (hl : s.atLoop = true) (he : s.ws.ending = true) :
    s.ws.ended = true := by
  refine (h.ending he).resolve_right fun hm => ?_
  rcases h.stack_of_loop hl with hst | hst | hst <;> simp [hst] at hm

/-- 'end' is noted only where it is emitted. -/
theorem end_step (hs : step K s a = some s') (he : .endEvent ∈ s'.log) :
    .endEvent ∈ s.log ∨ a = .emitEnd := by
  by_cases ha : a.inTime s
  · obtain ⟨new, hlog, hn⟩ := (step_calm ha hs).log
    rw [hlog, List.mem_append] at he
    refine he.symm.imp_right fun he => ?_
    rcases hn _ he with hin | hal
    · cases hin
    · cases a <;> first | rfl | simp at hal
  · -- a write behind `end()` is an error
    obtain ⟨chunk, rfl, hend⟩ : ∃ chunk, a = .write chunk ∧ s.ws.ending = true := by
      simpa [Act.inTime] using ha
    obtain ⟨-, hm⟩ := step_moves hs
    cases hm with
    | user => simpa [userCall, Engine.write, hend, nextTick, emit] using he

theorem endListeners_emitEnd : s.emitEnd.endListeners = [] := by
  cases hc : s.vcd.closed <;> cases hh : s.vcd.handle <;>
    simp [emitEnd, Engine.close, note, nextTick, hc, hh]

theorem released_of_reaches {ok : Engine σ → Act → Prop}
    (hr : Reaches (step K) ok (init mode m h x) s) (he : .endEvent ∈ s.log) :
    s.ws.ended = true ∧ s.endListeners = [] := by
  induction hr with
  | refl => cases he
  | @tail s t a hr _ hs ih =>
    have hi : s.Invariant := .reaches hr
    rcases end_step hs he with hold | rfl
    · obtain ⟨hd, hnil⟩ := ih hold
      have hlis := listens_step hs
      exact ⟨hlis.ended hd, (hlis.endListeners hd).elim (fun h => h.trans hnil) id⟩
    · obtain ⟨-, hm⟩ := step_moves hs
      cases hm with
      | user _ _ hu => cases hu
      | emitEnd hl heof =>
        have hf := hi.sound.control.flags
        have hd := hi.shape.ended_of_loop hl (hf.finished (hf.eof heof)).1
        exact ⟨listens_emitEnd.ended hd, endListeners_emitEnd⟩

/-! ## Every callback is called once -/

theorem parked_of_reaches (hr : Reaches (step K) (fun s a => a.heedsParked s) (init mode m h x) s) :
    s.log.Refused ∨ s.Parked := by
  induction hr with
  | refl => exact .inr ⟨fun hne => absurd rfl hne, fun he => by cases he⟩
  | tail hr hok hs ih => exact Parked.step (.reaches hr) ih hok hs

/-- Behind 'end', at rest, nothing waits but what is parked on 'drain', and nothing is. -/
theorem held_at_end (hi : s.Invariant) (hp : s.Parked) (he : .endEvent ∈ s.log)
    (hl : s.atLoop = true) (ht : s.ticks = []) (hend : s.endListeners = []) {id : ℕ}
    (hid : id < s.nextFlush) : s.held id = s.log.countP (Event.callsFlush id) := by
  have hf := hi.sound.control.flags
  obtain ⟨hending, hw, hq, -⟩ := hf.finished (hf.eof (hi.ended he))
  have hw' : s.ws.writing = none := hw
  have hq' : s.ws.bufferedRequest = [] := hq
  have hstack := hi.shape.stack_of_loop hl
  have hdrain : some id ∉ s.drainListeners := by
    intro hm
    rcases hp.coming hending ⟨id, hm⟩ with ⟨⟨callback, hmem⟩, -⟩ | ⟨rest, req, hrest, -⟩
    · rcases hstack with hst | hst | hst <;> simp [hst] at hmem
    · rw [hq'] at hrest
      simp at hrest
  have hframes : (s.stack.map (Frame.holds id)).sum = 0 := by
    rcases hstack with hst | hst | hst <;> simp [hst, Frame.holds]
  have hpassed : unpassed id s.nextFlush = 0 := if_neg (by omega)
  simp [held, hw', hq', ht, hend, hframes, hpassed, List.count_eq_zero_of_not_mem hdrain]

/-- In a run in which `end()` heeds the parked flushes, each callback passed to `flush` has been
called exactly once when 'end' was emitted and nothing is left to run; before that not twice. -/
theorem flushes_called_once
    (hr : Reaches (step K) (fun s a => a.heedsParked s) (init mode m h x) s) :
    (∀ id, s.log.countP (Event.callsFlush id) ≤ 1) ∧
      (.endEvent ∈ s.log → s.atLoop = true → s.ticks = [] →
        ∀ id < s.nextFlush, s.log.countP (Event.callsFlush id) = 1) := by
  have hone := held_of_reaches hr
  constructor
  · intro id
    have := hone id
    unfold held at this
    omega
  · intro he hl ht id hid
    have hi : s.Invariant := .reaches hr
    have href : ¬ s.log.Refused := (hi.at_end (hi.ended he)).1
    have hp : s.Parked := (parked_of_reaches hr).resolve_left href
    rw [← held_at_end hi hp he hl ht (released_of_reaches hr he).2 hid]
    exact hone id

/-- A flush waits for 'drain' and is called behind its empty chunk, before `end()`. -/
theorem flushes_called_once_copy : ∃ s, Reaches (step copyCoder) (fun s a => a.heedsParked s)
    (init .decode (.ofInt 4096) 1 ()) s ∧ .endEvent ∈ s.log ∧
      s.log.countP (Event.callsFlush 0) = 1 := by
  have hrun : ∃ s, Reaches (step copyCoder) (fun s a => a.heedsParked s)
      (init .decode (.ofInt 4096) 1 ()) s ∧ .endEvent ∈ s.log ∧ s.atLoop = true ∧
        s.ticks = [] ∧ 0 < s.nextFlush :=
    Transition.exists_reaches ([.write [1], .run, .flush true, .work, .afterShim] ++
      .replicate 12 .run ++ [.work, .afterShim] ++ .replicate 7 .run ++ [.read, .endWritable] ++
      .replicate 4 .run ++ [.work, .afterShim] ++ .replicate 4 .run ++
      [.emitEnd, .run, .run, .tick, .run]) (by decide +kernel)
  obtain ⟨s, hr, he, hl, ht, hn⟩ := hrun
  exact ⟨s, hr, he, (flushes_called_once hr).2 he hl ht 0 hn⟩

/-- A chunk fills the queue, a flush waits for 'drain', and `end()` comes first: the chunk is
the last one, and its completion emits no 'drain'. -/
theorem parked_flush_lost : ∃ s, Reaches (step copyCoder) anyStep
    (init .decode (.ofInt 4096) 1 ()) s ∧ .endEvent ∈ s.log ∧ s.stack = [] ∧ s.ticks = [] ∧
      (∀ e ∈ s.log, e.isError = false) ∧ s.log.ClosedAtEnd ∧ 0 < s.nextFlush ∧
      s.log.countP (Event.callsFlush 0) = 0 :=
  Transition.exists_reaches ([.write [1], .run, .flush true, .endWritable, .run, .run, .work,
    .afterShim] ++ .replicate 9 .run ++ [.work, .afterShim] ++ .replicate 4 .run ++
    [.read, .emitEnd, .run, .run, .tick, .run]) (by decide +kernel)

end Engine

end NodeVcdiff
