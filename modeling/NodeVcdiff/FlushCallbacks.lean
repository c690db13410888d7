import NodeVcdiff.Sound

/-!
# Where flush callbacks wait

A callback passed to `flush` is in one place: parked on 'drain' or on 'end', with a chunk, on
the stack, in the tick queue, or called. No method drops it or makes a second one of it.
-/

namespace NodeVcdiff

open Script (Number)
open Transition (Reaches)

/-- The flush callback `id`, counted in one slot for a callback. -/
def charge (id : ℕ) (callback : Option ℕ) : ℕ := if callback = some id then 1 else 0

/-- The flush callback `id` when `next` is the number that the next one gets. -/
def unpassed (id next : ℕ) : ℕ := if next ≤ id then 1 else 0

theorem unpassed_succ (id next : ℕ) :
    unpassed id (next + 1) + charge id (some next) = unpassed id next := by
  unfold unpassed charge
  rcases lt_trichotomy next id with h | h | h
  · rw [if_pos (by omega), if_neg (by simp; omega), if_pos (by omega)]
  · rw [if_neg (by omega), if_pos (by simp [h]), if_pos (by omega)]
  · rw [if_neg (by omega), if_neg (by simp; omega), if_neg (by omega)]

def WriteReq.holds (id : ℕ) (req : WriteReq) : ℕ := charge id req.callback

def Frame.holds (id : ℕ) : Frame → ℕ
  | .afterWrite _ callback | .writeCb callback => charge id callback
  | .drain listeners => listeners.count (some id)
  | .endListeners ids => ids.count id
  | _ => 0

def Tick.holds (id : ℕ) : Tick → ℕ
  | .flushCb i => charge id (some i)
  | .writeError callback => charge id callback
  | _ => 0

/-- The flush callback `id` is called. -/
def Event.callsFlush (id : ℕ) : Event → Bool
  | .flushCb i _ => decide (i = id)
  | _ => false

namespace Engine

variable {σ : Type*} {K : Coder σ} {s s' : Engine σ} {a : Act} {id : ℕ}

/-- In how many places the flush callback `id` is: not passed yet, waiting, or called. -/
def held (id : ℕ) (s : Engine σ) : ℕ :=
  unpassed id s.nextFlush + s.drainListeners.count (some id) +
    s.endListeners.count id +
    (s.ws.writing.toList.map (WriteReq.holds id)).sum +
    (s.ws.bufferedRequest.map (WriteReq.holds id)).sum + (s.stack.map (Frame.holds id)).sum +
    (s.ticks.map (Tick.holds id)).sum + s.log.countP (Event.callsFlush id)

theorem held_note {e : Event} (he : e.callsFlush id = false) : (s.note e).held id = s.held id := by
  simp [held, note, he]

theorem held_emit {e : Event} (he : e.callsFlush id = false) : (s.emit e).held id = s.held id := by
  simp [held, emit, he, Frame.holds]

theorem held_nextTick (t : Tick) : (s.nextTick t).held id = s.held id + t.holds id := by
  simp [held, nextTick]
  omega

theorem held_callUser (callback : Option ℕ) (ok : Bool) :
    (s.callUser callback ok).held id = s.held id + charge id callback := by
  cases callback with
  | none => simp [held, callUser, Frame.holds, charge]
  | some i =>
    by_cases hi : i = id <;>
      simp [held, callUser, emit, Frame.holds, charge, Event.callsFlush, hi]
    omega

theorem held_push {f : Frame} : ({ s with stack := f :: s.stack } : Engine σ).held id =
    s.held id + f.holds id := by
  simp [held]
  omega

theorem held_close (callback : Option ℕ) : (s.close callback).held id = s.held id := by
  cases callback <;> cases hc : s.vcd.closed <;> cases hh : s.vcd.handle <;>
    simp [Engine.close, hc, hh, held, note, nextTick, Tick.holds, Event.callsFlush]

theorem held_writeOrBuffer (req : WriteReq) :
    (s.writeOrBuffer req).held id = s.held id + req.holds id := by
  unfold writeOrBuffer
  dsimp only
  split
  · simp [held, Event.callsFlush]
    omega
  · next hw =>
    have hnone : s.ws.writing = none := by simpa using hw
    simp [held, doWrite, Event.callsFlush, hnone]
    omega

theorem held_write (req : WriteReq) : (s.write req).held id = s.held id + req.holds id := by
  unfold Engine.write
  split
  · rw [held_nextTick, held_emit rfl]
    rfl
  · exact held_writeOrBuffer req

theorem held_flush (callback : Option ℕ) :
    (s.flush callback).held id = s.held id + charge id callback := by
  unfold Engine.flush
  split
  · cases callback with
    | none => rfl
    | some i => exact held_nextTick _
  · split
    · cases callback with
      | none => rfl
      | some i =>
        by_cases hi : i = id <;> simp [held, charge, hi]
        omega
    · split
      · by_cases hi : callback = some id <;> simp [held, charge, hi]
        omega
      · exact held_write _

theorem held_endWritable : s.endWritable.held id = s.held id := by
  unfold Engine.endWritable
  split
  · rfl
  · simp [held, Frame.holds]

/-- The callback of a chunk goes from the chunk to its completion. -/
theorem held_onwrite (er : Option ErrorObject) (sync : Bool) :
    (s.onwrite er sync).held id = s.held id := by
  unfold onwrite
  split
  · rfl
  · next req hw =>
    rcases er with _ | e
    · dsimp only
      split <;> simp [held, hw, Frame.holds, WriteReq.holds] <;> omega
    · dsimp only
      split
      · rw [held_emit rfl, held_nextTick]
        simp [held, hw, Tick.holds, WriteReq.holds]
        omega
      · rw [held_callUser]
        simp [held, hw, Frame.holds, WriteReq.holds]
        omega

theorem held_transformCb (k : TransformCb) (er : Option ErrorObject) (sync : Bool) :
    (s.transformCb k er sync).held id = s.held id := by
  have hnote : (s.note (.transformCb k er.isNone)).held id = s.held id := held_note rfl
  rcases k with _ | _
  · simp only [transformCb]
    rw [held_onwrite]
    exact hnote
  · rcases er with _ | e
    · simp only [transformCb]
      rw [held_emit rfl]
      exact hnote
    · simp only [transformCb]
      rw [held_emit rfl, hnote]

theorem held_runCalling (c : Calling) : (s.runCalling c).held id = s.held id := by
  have hchunk : ∀ (t : Engine σ) (d : Buffer) (l ff : Bool) (k : TransformCb),
      (t.processChunk d l ff k).held id = t.held id := by
    intro t d l ff k
    unfold processChunk nativeWrite
    dsimp only
    split
    · split
      · simp [held, fail, Event.callsFlush]
      · split <;> simp [held, fail, note, Event.callsFlush]
    · rw [held_nextTick]
      simp [held, Tick.holds, Event.callsFlush]
  have htransform : ∀ (t : Engine σ) (d : Buffer) (b sync : Bool) (k : TransformCb),
      (t.transform d b sync k).held id = t.held id := by
    intro t d b sync k
    unfold transform
    dsimp only
    split
    · exact held_transformCb _ _ _
    · rw [hchunk]
      split <;> rfl
  cases c with
  | transform sync =>
    simp only [runCalling]
    split
    · exact htransform _ _ _ _ _
    · rfl
  | flush => exact htransform _ _ _ _ _

theorem held_afterShim : s.afterShim.held id = s.held id := by
  unfold afterShim
  dsimp only
  split
  · unfold onerror
    rw [held_emit rfl]
    simp [held, Frame.holds]
  · split
    · unfold callback
      split
      · simp [held, Frame.holds]
      · rw [held_emit rfl]
        simp [held, Frame.holds]
    · simp [held, Frame.holds]

/-- A frame that runs passes on what it holds. -/
theorem held_runFrame (f : Frame) : (s.runFrame f).held id = s.held id + f.holds id := by
  cases f with
  | user | ended | afterShim | sendError => rfl
  | cb k => exact held_transformCb _ _ _
  | clearBuffer =>
    simp only [runFrame]
    split
    · next hw hq =>
      simp [held, doWrite, hw, hq, Frame.holds]
      omega
    · rfl
  | afterWrite finished callback =>
    simp only [runFrame]
    split
    · simp [held, Frame.holds]
      omega
    · exact held_push
  | drain listeners =>
    cases listeners with
    | nil => rfl
    | cons callback rest =>
      simp only [runFrame]
      rw [held_flush]
      by_cases hi : callback = some id <;> simp [held, Frame.holds, charge, hi] <;> omega
  | writeCb callback =>
    simp only [runFrame]
    rw [held_callUser, held_push]
    rfl
  | finishMaybe =>
    simp only [runFrame]
    split
    · simp [held, Frame.holds]
    · rfl
  | emitError e => exact held_emit rfl
  | endListeners ids =>
    cases ids with
    | nil => rfl
    | cons i ids =>
      simp only [runFrame]
      rw [held_callUser, held_push]
      by_cases hi : i = id <;> simp [Frame.holds, charge, hi]
      omega

theorem held_runTick (t : Tick) : (s.runTick t).held id = s.held id + t.holds id := by
  cases t with
  | transformCb k => exact held_transformCb _ _ _
  | flushCb i => exact held_callUser _ _
  | writeError callback => exact held_callUser _ _
  | closeCb i => exact held_emit rfl
  | emitClose => exact held_emit rfl

theorem held_emitEnd : s.emitEnd.held id = s.held id := by
  unfold emitEnd
  rw [held_close]
  simp [held, Frame.holds, Event.callsFlush]
  omega

theorem held_pop {f : Frame} {fs : List Frame} (hs : s.stack = f :: fs) :
    ({ s with stack := fs } : Engine σ).held id + f.holds id = s.held id := by
  simp [held, hs]
  omega

theorem held_popTick {t : Tick} {ts : List Tick} (hs : s.ticks = t :: ts) :
    ({ s with ticks := ts } : Engine σ).held id + t.holds id = s.held id := by
  simp [held, hs]
  omega

/-- A callback is passed to `flush` when its number is the next one. -/
theorem held_flushCall : (({ s with nextFlush := s.nextFlush + 1 } : Engine σ).note
    (.flush s.nextFlush)).held id + charge id (some s.nextFlush) = s.held id := by
  rw [held_note rfl]
  have hnext := unpassed_succ id s.nextFlush
  simp only [held]
  omega

theorem held_step (h : step K s a = some s') : s'.held id = s.held id := by
  obtain ⟨-, hm⟩ := step_moves h
  cases hm with
  | work => exact held_note (s := { s with ctx := _ }) rfl
  | workFail => rfl
  | afterShim => exact held_afterShim
  | tick ht => rw [held_runTick, held_popTick ht]
  | emitEnd => exact held_emitEnd
  | calling => exact held_runCalling _
  | frame _ hst => rw [held_runFrame, held_pop hst]
  | user =>
    cases a with
    | write chunk => exact held_write _
    | flush hasCallback =>
      cases hasCallback with
      | false => exact held_flush none
      | true =>
        simp only [userCall]
        rw [held_flush, held_flushCall]
    | endWritable => exact held_endWritable
    | close hasCallback => cases hasCallback <;> exact held_close _
    | _ => rfl

/-- A flush callback is never lost and never doubled. -/
theorem held_of_reaches {ok : Engine σ → Act → Prop} {mode : Mode} {m : Number} {h : ℤ} {x : σ}
    (hr : Reaches (step K) ok (init mode m h x) s) (id : ℕ) : s.held id = 1 := by
  induction hr with
  | refl => simp [held, init, unpassed]
  | tail _ _ hs ih => rw [held_step hs, ih]

end Engine

end NodeVcdiff
