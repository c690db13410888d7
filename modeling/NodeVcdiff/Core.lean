import NodeVcdiff.Engine
import NodeVcdiff.ContextProtocol

/-!
# The core of a stream

The part of a stream's state that decides where the bytes go: the native context, the chunk
in progress and those behind it, and where the callback of the current `_transform` or
`_flush` call waits. Ticks, handlers and parked flushes matter to it only as places of such
a callback. Every method is an operation on the core, or leaves it alone.
-/

namespace NodeVcdiff

open Script (Number)

/-- The events that tell about bytes, native writes, their callbacks and errors, and about
closing. -/
def Event.isFlow : Event → Bool
  | .accept _ | .take _ | .nativeWrite _ _ | .work _ | .push _ | .transformCb _ _ => true
  | .close | .nativeClose | .endEvent => true
  | .error e => e.errno.isSome
  | _ => false

structure Core (σ : Type*) where
  ctx : VcdCtx σ
  window : Number
  mode : Mode
  hadError : Bool
  handle : Bool
  closed : Bool
  nread : ℕ
  buffers : List Buffer
  callback : Option TransformCb
  writing : Option WriteReq
  queue : List WriteReq
  length : ℕ
  ending : Bool
  prefinished : Bool
  transforming : Bool
  eof : Bool
  calling : Option Calling
  /-- the callbacks `afterTransform` and `done` waiting in the tick queue or on the stack -/
  after : ℕ
  done : ℕ
  /-- the native calls that wait for their `MakeCallback` to return -/
  afterShim : ℕ
  sendError : ℕ
  fault : Option Assertion
  log : History

namespace Engine

variable {σ : Type*} (s : Engine σ)

def core : Core σ where
  ctx := s.ctx
  window := s.vcd.minEncodeWindowSize
  mode := s.vcd.mode
  hadError := s.vcd.hadError
  handle := s.vcd.handle
  closed := s.vcd.closed
  nread := s.vcd.nread
  buffers := s.vcd.buffers
  callback := s.req.callback
  writing := s.ws.writing
  queue := s.ws.bufferedRequest
  length := s.ws.length
  ending := s.ws.ending
  prefinished := s.ws.prefinished
  transforming := s.ts.transforming
  eof := s.rs.ended
  calling := s.calling
  after := s.ticks.count (.transformCb .afterTransform) + s.stack.count (.cb .afterTransform)
  done := s.ticks.count (.transformCb .done) + s.stack.count (.cb .done)
  afterShim := s.stack.count .afterShim
  sendError := s.stack.count .sendError
  fault := s.fault
  log := s.log.filter Event.isFlow

end Engine

namespace Core

variable {σ : Type*} (c : Core σ)

def note (e : Event) : Core σ := { c with log := e :: c.log }

def fail (a : Assertion) : Core σ := { c with fault := some a }

/-- A callback `k` is put into the tick queue or on the stack. -/
def park (k : TransformCb) : Core σ :=
  match k with
  | .afterTransform => { c with after := c.after + 1 }
  | .done => { c with done := c.done + 1 }

/-- A waiting callback `k` is taken out. -/
def unpark (k : TransformCb) : Core σ :=
  match k with
  | .afterTransform => { c with after := c.after - 1 }
  | .done => { c with done := c.done - 1 }

def close : Core σ :=
  let c := c.note .close
  if c.closed then c
  else if c.handle then { c with closed := true, ctx := c.ctx.close }.note .nativeClose
  else { c with closed := true }

/-- A chunk becomes the current one. -/
def start (req : WriteReq) (wants : Bool) : Core σ :=
  { c with
    writing := some req
    calling := if wants then some (.transform true) else c.calling }

def accept (req : WriteReq) (wants : Bool) : Core σ :=
  let c := { c with length := c.length + req.chunk.length, log := .accept req.chunk :: c.log }
  if c.writing.isSome then { c with queue := c.queue ++ [req] } else c.start req wants

def finishWriting (req : WriteReq) : Core σ :=
  { c with writing := none, length := c.length - req.chunk.length }

/-- The callback of a `_transform` or `_flush` call is called. -/
def transformCb (k : TransformCb) (ok : Bool) : Core σ :=
  let c := c.note (.transformCb k ok)
  match k with
  | .afterTransform =>
    match c.writing with
    | some req => { c with transforming := false }.finishWriting req
    | none => { c with transforming := false }
  | .done => if ok then { c with eof := true } else c

def nativeWrite (isLast : Bool) (chunk : Buffer) (k : TransformCb) : Core σ :=
  match c.ctx.writeAsync chunk isLast with
  | .error a => c.fail a
  | .ok ctx => { c with ctx, callback := some k }.note (.nativeWrite isLast chunk)

def processChunk (chunk : Buffer) (isLast forceFlush : Bool) (k : TransformCb) : Core σ :=
  let c := { c with
    nread := c.nread + chunk.length
    buffers := c.buffers ++ [chunk]
    log := .take chunk :: c.log }
  if c.window.le (.ofInt c.nread) || forceFlush || decide (c.mode = .decode) then
    if c.closed then c.fail .bindingClosed
    else
      { c with nread := 0, buffers := [] }.nativeWrite isLast (Engine.concat c.buffers c.nread) k
  else c.park k

def transform (chunk : Buffer) (forceFlush : Bool) (k : TransformCb) : Core σ :=
  if c.closed then c.transformCb k false
  else c.processChunk chunk (c.ending && decide (c.length = chunk.length)) forceFlush k

def runCalling (call : Calling) (forceFlush : Bool) : Core σ :=
  let c := { c with calling := none }
  match call with
  | .transform _ =>
    match c.writing with
    | some req => { c with transforming := true }.transform req.chunk
        (forceFlush || decide (req.chunk.length = 0)) .afterTransform
    | none => c
  | .flush => c.transform [] true .done

/-- `AfterShim` after a failed write. -/
def report : Core σ :=
  { c with
    ctx.workReq := none
    hadError := true
    handle := false
    sendError := c.sendError + 1 }.note (.error (nativeError c.ctx.err))

/-- `AfterShim` after a successful write that has the callback `k`. -/
def deliver (k : TransformCb) : Core σ :=
  let r := { c.ctx with workReq := none }.finishWrite
  ({ c with ctx := r.1, afterShim := c.afterShim + 1 }.note (.push r.2.1)).park k

end Core

namespace Engine

variable {σ : Type*} {s : Engine σ}

theorem core_note_flow {e : Event} (he : e.isFlow = true) :
    (s.note e).core = s.core.note e := by
  simp [core, note, Core.note, he]

theorem core_note {e : Event} (he : e.isFlow = false) : (s.note e).core = s.core := by
  simp [core, note, he]

theorem core_emit {e : Event} (he : e.isFlow = false) : (s.emit e).core = s.core := by
  simp [core, emit, he]

theorem core_emit_flow {e : Event} (he : e.isFlow = true) :
    (s.emit e).core = s.core.note e := by
  simp [core, emit, Core.note, he]

@[simp] theorem core_callUser (callback : Option ℕ) (ok : Bool) :
    (s.callUser callback ok).core = s.core := by
  cases callback
  · simp [core, callUser]
  · exact core_emit rfl

theorem core_nextTick {t : Tick} (ht : ∀ k, t ≠ .transformCb k) :
    (s.nextTick t).core = s.core := by
  simp [core, nextTick, ht]

@[simp] theorem core_nextTick_transformCb (k : TransformCb) :
    (s.nextTick (.transformCb k)).core = s.core.park k := by
  cases k <;> simp [core, nextTick, Core.park] <;> omega

theorem core_close (callback : Option ℕ) : (s.close callback).core = s.core.close := by
  cases callback <;> cases hc : s.vcd.closed <;> cases hh : s.vcd.handle <;>
    simp [close, hc, hh, core, note, nextTick, Core.close, Core.note, List.filter_cons,
      Event.isFlow]

theorem core_writeOrBuffer (req : WriteReq) :
    (s.writeOrBuffer req).core = s.core.accept req s.ts.wants := by
  by_cases hw : s.ws.writing.isSome <;>
    simp [writeOrBuffer, Core.accept, hw, core, doWrite, Core.start,
      List.filter_cons, Event.isFlow]

theorem core_write (req : WriteReq) : (s.write req).core =
    if s.ws.ending then s.core else s.core.accept req s.ts.wants := by
  cases hd : s.ws.ending
  · simp [write, hd, core_writeOrBuffer]
  · simp only [write, hd, if_true]
    rw [core_nextTick (by simp), core_emit rfl]

theorem core_flush (callback : Option ℕ) : (s.flush callback).core =
    if s.ws.ended || s.ws.ending || s.ws.needDrain then s.core
    else s.core.accept ⟨[], callback⟩ s.ts.wants := by
  cases he : s.ws.ended
  · cases hd : s.ws.ending
    · cases hn : s.ws.needDrain
      · simp only [flush, he, hd, hn, Bool.false_eq_true, if_false, Bool.or_self]
        rw [core_write]
        simp [hd]; rfl
      · simp [flush, he, hd, hn, core]
    · cases callback <;> simp [flush, he, hd, core]
  · cases callback <;> simp [flush, he, core_nextTick]

theorem core_endWritable : s.endWritable.core = { s.core with ending := true } := by
  cases hd : s.ws.ending <;> simp [endWritable, hd, core]

theorem core_demand (wants : Bool) : (s.demand wants).core =
    { s.core with calling :=
        if wants && s.ws.writing.isSome && !s.ts.transforming then some (.transform false)
        else s.calling } := rfl

theorem core_onwrite (er : Option ErrorObject) (sync : Bool)
    (he : ∀ e, er = some e → e.errno = none) : (s.onwrite er sync).core =
    match s.ws.writing with
    | some req => s.core.finishWriting req
    | none => s.core := by
  have hf : ∀ e, er = some e → (Event.error e).isFlow = false := fun e h => by
    simp [Event.isFlow, he e h]
  unfold onwrite
  split
  · next hw => rw [hw]
  · next req hw =>
    rw [hw]
    rcases er with _ | e
    · dsimp only
      split <;> simp [core, Core.finishWriting]
    · dsimp only
      split
      · rw [core_emit (hf e rfl), core_nextTick (by simp)]; rfl
      · rw [core_callUser]; simp [core, Core.finishWriting]

theorem core_transformCb (k : TransformCb) (er : Option ErrorObject) (sync : Bool)
    (he : ∀ e, er = some e → e.errno = none) :
    (s.transformCb k er sync).core = s.core.transformCb k er.isNone := by
  have hn : (s.note (.transformCb k er.isNone)).core = s.core.note (.transformCb k er.isNone) :=
    core_note_flow rfl
  unfold transformCb Core.transformCb
  rcases k with _ | _
  · dsimp only
    rw [core_onwrite _ _ he, ← hn]
    have hw : (s.note (.transformCb .afterTransform er.isNone)).core.writing = s.ws.writing := rfl
    rw [hw]
    cases hw' : s.ws.writing <;> simp [core, note, hw']
  · rcases er with _ | e
    · dsimp only
      rw [core_emit rfl, ← hn]
      rfl
    · dsimp only
      rw [core_emit (by simp [Event.isFlow, he e rfl]), hn]
      rfl

theorem core_nativeWrite (isLast : Bool) (chunk : Buffer) (k : TransformCb) :
    (s.nativeWrite isLast chunk k).core = s.core.nativeWrite isLast chunk k := by
  have hc : s.core.ctx = s.ctx := rfl
  unfold nativeWrite Core.nativeWrite
  rw [hc]
  cases s.ctx.writeAsync chunk isLast with
  | error a => rfl
  | ok ctx => exact core_note_flow rfl

theorem core_processChunk (chunk : Buffer) (isLast forceFlush : Bool) (k : TransformCb) :
    (s.processChunk chunk isLast forceFlush k).core =
      s.core.processChunk chunk isLast forceFlush k := by
  unfold processChunk Core.processChunk
  dsimp only
  rw [apply_ite core, apply_ite core]
  refine if_congr Iff.rfl (if_congr Iff.rfl rfl ?_) ?_
  · exact core_nativeWrite _ _ _
  · exact core_nextTick_transformCb k

theorem core_transform (chunk : Buffer) (isBuffer sync : Bool) (k : TransformCb)
    (he : s.ws.ended = true → s.ws.ending = true) :
    (s.transform chunk isBuffer sync k).core =
      s.core.transform chunk (s.vcd.forceFlush || (isBuffer && decide (chunk.length = 0))) k := by
  have hending : (s.ws.ending || s.ws.ended) = s.ws.ending := by
    cases h : s.ws.ended <;> simp [h, he]
  unfold transform Core.transform
  simp only [hending]
  have hc : s.core.closed = s.vcd.closed := rfl
  rw [hc]
  split
  · exact core_transformCb _ _ _ (by rintro e ⟨⟩; rfl)
  · rw [core_processChunk]
    split <;> rfl

theorem core_runCalling (call : Calling) (he : s.ws.ended = true → s.ws.ending = true) :
    (s.runCalling call).core = s.core.runCalling call s.vcd.forceFlush := by
  rcases call with sync | _
  · have hw : s.core.writing = s.ws.writing := rfl
    simp only [runCalling, Core.runCalling]
    split
    · next req hreq =>
      rw [core_transform _ _ _ _ (by exact he), Bool.true_and]
      split
      · next req' hreq' =>
        obtain rfl : req = req' := Option.some.inj (hreq.symm.trans hreq')
        rfl
      · next hnone => exact absurd (hreq.symm.trans hnone) (by simp)
    · next hnone =>
      split
      · next req' hreq' => exact absurd (hnone.symm.trans hreq') (by simp)
      · rfl
  · simp only [runCalling, Core.runCalling, flushRest]
    rw [core_transform _ _ _ _ (by exact he)]
    rfl

theorem core_onerror (err : Error) : (s.onerror err).core =
    { s.core with handle := false, hadError := true }.note (.error (nativeError err)) :=
  core_emit_flow rfl

theorem core_callback (k : TransformCb) (out : Buffer) (hh : s.vcd.hadError = false) :
    (s.callback k out).core = (s.core.note (.push out)).park k := by
  simp only [callback, hh, Bool.false_eq_true, if_false]
  rw [core_emit_flow rfl]
  cases k <;> simp [core, Core.note, Core.park] <;> omega

theorem core_afterShim (hh : s.vcd.hadError = false) {k : TransformCb}
    (hk : s.req.callback = some k) : s.afterShim.core =
    if s.ctx.hasError then s.core.report else s.core.deliver k := by
  have herr : ({ s.ctx with workReq := none } : VcdCtx σ).hasError = s.ctx.hasError := rfl
  simp only [afterShim, herr]
  split
  · rw [core_onerror]
    simp [core, Core.report, Core.note]
  · simp only [hk]
    rw [core_callback _ _ (by exact hh)]
    simp [core, Core.deliver, Core.note]

theorem core_emitEnd : s.emitEnd.core = (s.core.note .endEvent).close := by
  unfold emitEnd
  rw [core_close]
  simp [core, Core.note, List.filter_cons, Event.isFlow]

end Engine

end NodeVcdiff
