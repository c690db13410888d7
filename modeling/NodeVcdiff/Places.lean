import NodeVcdiff.Sound

/-!
# Where callbacks wait

The callback of a `_transform` or `_flush` call waits in the tick queue, on the stack, or on
the request of a native write. Only the start of a call, `AfterShim` and the callback itself
change that.
-/

namespace NodeVcdiff

open Script (Number)

/-- What happens to the callbacks of calls, without telling whose they are. -/
inductive Deed where
  | write
  | push (out : Buffer)
  | fail
  | answer (ok : Bool)
  deriving DecidableEq, Repr

def Event.deed : Event → Option Deed
  | .nativeWrite _ _ => some .write
  | .push out => some (.push out)
  | .transformCb _ ok => some (.answer ok)
  | .error e => if e.errno.isSome then some .fail else none
  | _ => none

def Tick.waiting : Tick → Option TransformCb
  | .transformCb k => some k
  | _ => none

def Frame.waiting : Frame → Option TransformCb
  | .cb k => some k
  | _ => none

theorem Frame.waiting_eq_none {f : Frame} (hf : ∀ k, f ≠ .cb k) : f.waiting = none := by
  cases f with
  | cb k => exact absurd rfl (hf k)
  | _ => rfl

/-- The callbacks that wait, by their places, the flags of the native write, and the deeds so
far, newest first. -/
structure Places where
  ticks : List TransformCb
  frames : List TransformCb
  requested : Bool
  inFlight : Bool
  hadError : Bool
  deeds : List Deed

/-- One more deed. -/
def Places.add (d : Deed) (p : Places) : Places := { p with deeds := d :: p.deeds }

namespace Engine

variable {σ : Type*} {K : Coder σ} {s s' : Engine σ} {a : Act}

def places (s : Engine σ) : Places where
  ticks := s.ticks.filterMap Tick.waiting
  frames := s.stack.filterMap Frame.waiting
  requested := s.req.callback.isSome
  inFlight := s.ctx.workReq.isSome
  hadError := s.vcd.hadError
  deeds := s.log.filterMap Event.deed

theorem places_note {e : Event} (he : e.deed = none) : (s.note e).places = s.places := by
  simp [places, note, he]

theorem places_note_deed {e : Event} {d : Deed} (he : e.deed = some d) :
    (s.note e).places = s.places.add d := by
  simp [places, note, he, Places.add]

theorem places_user : ({ s with stack := .user :: s.stack } : Engine σ).places = s.places := by
  simp [places, Frame.waiting, List.filterMap_cons]

theorem places_emit {e : Event} (he : e.deed = none) : (s.emit e).places = s.places :=
  (places_user (s := s.note e)).trans (places_note he)

theorem places_emit_deed {e : Event} {d : Deed} (he : e.deed = some d) :
    (s.emit e).places = s.places.add d :=
  (places_user (s := s.note e)).trans (places_note_deed he)

theorem places_nextTick {t : Tick} (ht : t.waiting = none) :
    (s.nextTick t).places = s.places := by
  simp [places, nextTick, ht]

theorem places_nextTick_transformCb (k : TransformCb) : (s.nextTick (.transformCb k)).places =
    { s.places with ticks := s.places.ticks ++ [k] } := by
  simp [places, nextTick, Tick.waiting]

@[simp] theorem places_callUser (callback : Option ℕ) (ok : Bool) :
    (s.callUser callback ok).places = s.places := by
  cases callback
  · exact places_user
  · exact places_emit rfl

@[simp] theorem places_close (callback : Option ℕ) : (s.close callback).places = s.places := by
  have hctx := (VcdCtx.sameWork_close s.ctx).workReq
  cases callback <;> cases hc : s.vcd.closed <;> cases hh : s.vcd.handle <;>
    simp [Engine.close, hc, hh, places, note, nextTick, Tick.waiting, hctx, Event.deed,
      List.filterMap_cons]

@[simp] theorem places_writeOrBuffer (req : WriteReq) :
    (s.writeOrBuffer req).places = s.places := by
  by_cases hw : s.ws.writing.isSome <;> 
    simp [writeOrBuffer, hw, places, doWrite, Event.deed, List.filterMap_cons]

@[simp] theorem places_write (req : WriteReq) : (s.write req).places = s.places := by
  unfold Engine.write
  split
  · rw [places_nextTick rfl, places_emit rfl]
  · exact places_writeOrBuffer req

@[simp] theorem places_flush (callback : Option ℕ) : (s.flush callback).places = s.places := by
  unfold Engine.flush
  split
  · cases callback
    · rfl
    · exact places_nextTick rfl
  · split
    · cases callback <;> rfl
    · split
      · rfl
      · exact places_write _

@[simp] theorem places_endWritable : s.endWritable.places = s.places := by
  unfold Engine.endWritable
  split
  · rfl
  · simp [places, Frame.waiting, List.filterMap_cons]

theorem deed_error {e : ErrorObject} (he : e.errno = none) : (Event.error e).deed = none := by
  simp [Event.deed, he]

theorem places_onwrite (er : Option ErrorObject) (sync : Bool)
    (he : ∀ e, er = some e → e.errno = none) : (s.onwrite er sync).places = s.places := by
  unfold onwrite
  split
  · rfl
  · rcases er with _ | e
    · dsimp only
      split <;> simp [places, Frame.waiting, List.filterMap_cons]
    · dsimp only
      split
      · rw [places_emit (deed_error (he e rfl)), places_nextTick rfl]; rfl
      · rw [places_callUser]; simp [places, Frame.waiting, List.filterMap_cons]

/-- The callback itself has left its place before it is called. -/
theorem places_transformCb (k : TransformCb) (er : Option ErrorObject) (sync : Bool)
    (he : ∀ e, er = some e → e.errno = none) :
    (s.transformCb k er sync).places = s.places.add (.answer er.isNone) := by
  have hnote : (s.note (.transformCb k er.isNone)).places = s.places.add (.answer er.isNone) :=
    places_note_deed rfl
  rcases k with _ | _
  · simp only [transformCb]
    rw [places_onwrite _ _ he]
    exact hnote
  · rcases er with _ | e
    · simp only [transformCb]
      rw [places_emit rfl]
      exact hnote
    · simp only [transformCb]
      rw [places_emit (deed_error (he e rfl)), hnote]

theorem places_runFrame {f : Frame} (hf : ∀ k, f ≠ .cb k)
    (he : ∀ e, f = .emitError e → e.errno = none) :
    (s.runFrame f).places = s.places := by
  cases f with
  | user | ended => rfl
  | cb k => exact absurd rfl (hf k)
  | clearBuffer =>
    simp only [runFrame]
    split
    · simp [doWrite, places, Frame.waiting, List.filterMap_cons]
    · rfl
  | afterWrite finished callback =>
    simp only [runFrame]
    split <;> simp [places, Frame.waiting, List.filterMap_cons]
  | drain listeners =>
    cases listeners with
    | nil => rfl
    | cons callback rest =>
      simp only [runFrame, places_flush]
      simp [places, Frame.waiting, List.filterMap_cons]
  | writeCb callback =>
    simp only [runFrame, places_callUser]
    simp [places, Frame.waiting, List.filterMap_cons]
  | finishMaybe =>
    simp only [runFrame]
    split
    · simp [places, Frame.waiting, List.filterMap_cons]
    · rfl
  | emitError e => exact places_emit (deed_error (he e rfl))
  | endListeners ids =>
    cases ids with
    | nil => rfl
    | cons id ids =>
      simp only [runFrame, places_callUser]
      simp [places, Frame.waiting, List.filterMap_cons]
  | afterShim =>
    have hctx := (VcdCtx.sameWork_afterCallback s.ctx).workReq
    simp [runFrame, places, hctx]
  | sendError =>
    have hctx := (VcdCtx.sameWork_afterOnerror s.ctx).workReq
    simp [runFrame, places, hctx]

theorem places_pop {f : Frame} {fs : List Frame} (hs : s.stack = f :: fs) (hf : f.waiting = none) :
    ({ s with stack := fs } : Engine σ).places = s.places := by
  simp [places, hs, hf]

theorem places_popTick {t : Tick} {ts : List Tick} (hs : s.ticks = t :: ts)
    (ht : t.waiting = none) : ({ s with ticks := ts } : Engine σ).places = s.places := by
  simp [places, hs, ht]

theorem places_runTick {t : Tick} (ht : t.waiting = none) : (s.runTick t).places = s.places := by
  cases t with
  | transformCb k => cases ht
  | flushCb id => exact places_callUser _ _
  | writeError callback => exact places_callUser _ _
  | closeCb id => exact places_emit rfl
  | emitClose => exact places_emit rfl

theorem places_emitEnd : s.emitEnd.places = s.places := by
  unfold emitEnd
  rw [places_close]
  simp [places, Frame.waiting, List.filterMap_cons, Event.deed]

theorem places_userCall (a : Act) : (s.userCall a).places = s.places := by
  cases a with
  | write chunk => exact places_write _
  | flush hasCallback =>
    cases hasCallback
    · exact places_flush _
    · exact (places_flush _).trans (places_note (s := { s with nextFlush := s.nextFlush + 1 }) rfl)
  | endWritable => exact places_endWritable
  | close hasCallback => cases hasCallback <;> exact places_close _
  | _ => rfl

/-- A frame that is no callback moves none. -/
theorem Invariant.places_frame (h : s.Invariant) {f : Frame} {fs : List Frame}
    (hst : s.stack = f :: fs) (hf : ∀ k, f ≠ .cb k) :
    (({ s with stack := fs } : Engine σ).runFrame f).places = s.places := by
  refine (places_runFrame hf fun e he => ?_).trans (places_pop hst (Frame.waiting_eq_none hf))
  exact h.shape.plain e (by simp [hst, he])

/-- The worker moves no callback. -/
theorem Invariant.places_work (h : s.Invariant) {w : WorkData} (hw : s.ctx.workReq = some w)
    (hd : s.ctx.workDone = false) {ctx : VcdCtx σ} {calls : List Call}
    (hp : s.ctx.processShim K w = .ok (ctx, calls)) :
    (({ s with ctx } : Engine σ).note (.work calls)).places = s.places := by
  obtain ⟨ctx', rfl, hdone, -⟩ := h.sound.worked hw hd hp
  have hreq : ctx'.workReq = s.ctx.workReq := hdone.workReq
  refine (places_note rfl).trans ?_
  simp [places, hreq]

/-! ## A call runs -/

/-- Where a call on an open stream puts its callback. -/
inductive Puts (p : Places) (s' : Engine σ) : Prop where
  | failed : s'.fault.isSome → Puts p s'
  | installed {isLast : Bool} {chunk : Buffer} :
      s'.log.head? = some (.nativeWrite isLast chunk) →
      s'.places = { p with requested := true, inFlight := true }.add .write → Puts p s'
  | queued {chunk : Buffer} {k : TransformCb} : s'.log.head? = some (.take chunk) →
      s'.places = { p with ticks := p.ticks ++ [k] } → Puts p s'

theorem puts_processChunk (chunk : Buffer) (isLast forceFlush : Bool) (k : TransformCb) :
    Puts s.places (s.processChunk chunk isLast forceFlush k) := by
  unfold processChunk
  dsimp only
  split
  · split
    · exact .failed rfl
    · unfold nativeWrite
      dsimp only
      split
      · exact .failed rfl
      · next ctx hctx =>
        have hw : ctx.workReq.isSome = true := by
          unfold VcdCtx.writeAsync at hctx
          cases hb : s.ctx.beginWrite (concat (s.vcd.buffers ++ [chunk])
              (s.vcd.nread + chunk.length)) with
          | error e => rw [hb] at hctx; cases hctx
          | ok c => rw [hb] at hctx; cases hctx; rfl
        refine .installed rfl ?_
        rw [places_note_deed (d := .write) rfl]
        simp [places, hw, Places.add, Event.deed, List.filterMap_cons]
  · refine .queued (k := k) rfl ((places_nextTick_transformCb k).trans ?_)
    simp [places, Event.deed, List.filterMap_cons]

theorem puts_transform (chunk : Buffer) (isBuffer sync : Bool) (k : TransformCb)
    (hc : s.vcd.closed = false) : Puts s.places (s.transform chunk isBuffer sync k) := by
  unfold transform
  dsimp only
  rw [if_neg (by simp [hc])]
  split
  · exact puts_processChunk (s := { s with vcd.forceFlush := false }) _ _ _ _
  · exact puts_processChunk _ _ _ _

theorem puts_runCalling {c : Calling} (hw : c ≠ .flush → s.ws.writing.isSome)
    (hc : s.vcd.closed = false) : Puts s.places (s.runCalling c) := by
  cases c with
  | transform sync =>
    obtain ⟨req, hreq⟩ := Option.isSome_iff_exists.mp (hw (by simp))
    simp only [runCalling, hreq]
    exact puts_transform (s := { s with calling := none, ts.transforming := true }) _ _ _ _ hc
  | flush =>
    exact puts_transform (s := { s with calling := none, vcd.forceFlush := true }) _ _ _ _ hc

/-- On a closed stream the callback is called at once. -/
theorem places_refused {c : Calling} (hw : c ≠ .flush → s.ws.writing.isSome)
    (hc : s.vcd.closed = true) :
    (s.runCalling c).places = s.places.add (.answer false) := by
  have key : ∀ (t : Engine σ) (chunk : Buffer) (isBuffer sync : Bool) (k : TransformCb),
      t.vcd.closed = true →
        (t.transform chunk isBuffer sync k).places = t.places.add (.answer false) := by
    intro t chunk isBuffer sync k ht
    unfold transform
    dsimp only
    rw [if_pos ht]
    exact places_transformCb _ _ _ (by rintro e ⟨⟩; rfl)
  cases c with
  | transform sync =>
    obtain ⟨req, hreq⟩ := Option.isSome_iff_exists.mp (hw (by simp))
    simp only [runCalling, hreq]
    exact key _ _ _ _ _ hc
  | flush => exact key _ _ _ _ _ hc

/-! ## A native write is done -/

theorem places_afterShim (hh : s.vcd.hadError = false) (hr : s.req.callback.isSome) :
    ∃ k, s.afterShim.places = if s.ctx.hasError then
        { s.places with inFlight := false, hadError := true }.add .fail
      else { s.places with inFlight := false, frames := k :: s.places.frames }.add
        (.push s.ctx.finishWrite.2.1) := by
  obtain ⟨k, hk⟩ := Option.isSome_iff_exists.mp hr
  have herr : ({ s.ctx with workReq := none } : VcdCtx σ).hasError = s.ctx.hasError := rfl
  refine ⟨k, ?_⟩
  unfold Engine.afterShim
  simp only [herr]
  split
  · unfold onerror
    rw [places_emit_deed (d := .fail) (by simp [Event.deed, nativeError])]
    simp [places, Frame.waiting, List.filterMap_cons]
  · simp only [hk]
    unfold Engine.callback
    dsimp only
    rw [if_neg (by simp [hh]), places_emit_deed (d := .push s.ctx.finishWrite.2.1) rfl]
    simp [places, Frame.waiting, List.filterMap_cons, VcdCtx.finishWrite, hk]

end Engine

end NodeVcdiff
