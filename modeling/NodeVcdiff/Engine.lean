import NodeVcdiff.Context
import NodeVcdiff.History
import NodeVcdiff.Number

/-!
# The stream object

`Vcdiff` on top of the native context and of Node's Transform (byte mode, strings decoded).
A state holds both sides, the queue of `process.nextTick` and the stack of what remains to
run of the calls in progress. Handlers of the user run where the stack shows `Frame.user`.
-/

namespace NodeVcdiff

open Script (Number)

inductive Mode where
  | encode
  | decode
  deriving DecidableEq, Repr

/-- A chunk with the number of the flush callback that waits for it, if any. -/
structure WriteReq where
  chunk : Buffer
  callback : Option ℕ
  deriving DecidableEq, Repr

/-- `_writableState`. `writing` is the chunk handed to `_write`, `bufferedRequest` the
chunks behind it. -/
structure WritableState where
  highWaterMark : ℤ
  needDrain : Bool := false
  ending : Bool := false
  ended : Bool := false
  prefinished : Bool := false
  bufferProcessing : Bool := false
  length : ℕ := 0
  writing : Option WriteReq := none
  bufferedRequest : List WriteReq := []

/-- `_transformState`. `wants` tells whether the readable side asks for data now: that
depends on its consumer and changes freely. -/
structure TransformState where
  transforming : Bool := false
  wants : Bool := true

/-- `_readableState`: pushed and not yet read, end of data pushed, 'end' emitted. -/
structure ReadableState where
  buffer : List Buffer := []
  ended : Bool := false
  endEmitted : Bool := false

/-- The fields of a `Vcdiff` object. `handle` tells that `_handle` is not null. -/
structure Vcdiff where
  minEncodeWindowSize : Number
  mode : Mode
  hadError : Bool := false
  handle : Bool := true
  closed : Bool := false
  forceFlush : Bool := false
  nread : ℕ := 0
  buffers : List Buffer := []

/-- The fields that `_processChunk` stores on the request returned by the native write,
which is the handle itself. -/
structure Request where
  callback : Option TransformCb := none
  buffer : Option Buffer := none

/-- The entries of the `process.nextTick` queue. -/
inductive Tick where
  | transformCb (k : TransformCb)
  | flushCb (id : ℕ)
  | writeError (callback : Option ℕ)
  | closeCb (id : ℕ)
  | emitClose
  deriving DecidableEq, Repr

/-- A call that runs before anything else does. -/
inductive Calling where
  | transform (sync : Bool)
  | flush
  deriving DecidableEq, Repr

/-- What remains to run of a call in progress. -/
inductive Frame where
  /-- handlers of the user are running -/
  | user
  /-- `cb()` at the end of `callback` in `_processChunk` -/
  | cb (k : TransformCb)
  | clearBuffer
  | afterWrite (finished : Bool) (callback : Option ℕ)
  /-- the flushes parked on 'drain' that the current emission has not reached -/
  | drain (listeners : List (Option ℕ))
  | writeCb (callback : Option ℕ)
  | finishMaybe
  /-- `state.ended = true` at the end of `end()` -/
  | ended
  | emitError (e : ErrorObject)
  /-- the flush callbacks parked on 'end' -/
  | endListeners (ids : List ℕ)
  /-- `AfterShim` and `SendError` behind their `MakeCallback` -/
  | afterShim
  | sendError
  deriving DecidableEq, Repr

structure Engine (σ : Type*) where
  ctx : VcdCtx σ
  vcd : Vcdiff
  req : Request := {}
  ws : WritableState
  ts : TransformState := {}
  rs : ReadableState := {}
  drainListeners : List (Option ℕ) := []
  endListeners : List ℕ := []
  ticks : List Tick := []
  stack : List Frame := []
  calling : Option Calling := none
  nextFlush : ℕ := 0
  nextClose : ℕ := 0
  fault : Option Assertion := none
  log : History := []

namespace Engine

variable {σ : Type*}

/-- A stream as its constructor leaves it. -/
def init (mode : Mode) (minEncodeWindowSize : Number) (highWaterMark : ℤ) (coder : σ) :
    Engine σ where
  ctx := .create coder
  vcd := { minEncodeWindowSize, mode }
  ws := { highWaterMark }

def note (e : Event) (s : Engine σ) : Engine σ := { s with log := e :: s.log }

def nextTick (t : Tick) (s : Engine σ) : Engine σ := { s with ticks := s.ticks ++ [t] }

/-- An assertion failed: the process is gone. -/
def fail (a : Assertion) (s : Engine σ) : Engine σ := { s with fault := some a }

/-- Emit an event; its listeners run next. -/
def emit (e : Event) (s : Engine σ) : Engine σ :=
  { s with log := e :: s.log, stack := .user :: s.stack }

/-- Call a callback of the user. -/
def callUser (callback : Option ℕ) (ok : Bool) (s : Engine σ) : Engine σ :=
  match callback with
  | some id => s.emit (.flushCb id ok)
  | none => { s with stack := .user :: s.stack }

/-! ## Closing -/

/-- `Vcdiff.prototype.close` -/
def close (callback : Option ℕ) (s : Engine σ) : Engine σ :=
  let s := s.note .close
  let s := match callback with
    | some id => s.nextTick (.closeCb id)
    | none => s
  if s.vcd.closed then s
  else
    let s := { s with vcd.closed := true }
    if s.vcd.handle then
      ({ s with ctx := s.ctx.close }.note .nativeClose).nextTick .emitClose
    else s.note .closeThrew

/-! ## Writing -/

/-- Transform's `_write`: the chunk waits until the readable side asks for data. -/
def doWrite (req : WriteReq) (s : Engine σ) : Engine σ :=
  { s with
    ws.writing := some req
    calling := if s.ts.wants then some (.transform true) else s.calling }

def writeOrBuffer (req : WriteReq) (s : Engine σ) : Engine σ :=
  let length := s.ws.length + req.chunk.length
  let s := { s with
    ws.length := length
    ws.needDrain := s.ws.needDrain || !decide ((length : ℤ) < s.ws.highWaterMark)
    log := .accept req.chunk :: s.log }
  if s.ws.writing.isSome then { s with ws.bufferedRequest := s.ws.bufferedRequest ++ [req] }
  else s.doWrite req

/-- Writable's `write`. A write after `end` is an error from the moment `end` is called. -/
def write (req : WriteReq) (s : Engine σ) : Engine σ :=
  if s.ws.ending then (s.emit (.error writeAfterEnd)).nextTick (.writeError req.callback)
  else s.writeOrBuffer req

/-- `Vcdiff.prototype.flush` -/
def flush (callback : Option ℕ) (s : Engine σ) : Engine σ :=
  if s.ws.ended then
    match callback with
    | some id => s.nextTick (.flushCb id)
    | none => s
  else if s.ws.ending then
    match callback with
    | some id => { s with endListeners := s.endListeners ++ [id] }
    | none => s
  else if s.ws.needDrain then { s with drainListeners := s.drainListeners ++ [callback] }
  else { s with vcd.forceFlush := true }.write ⟨[], callback⟩

/-- Writable's `end` without a chunk. -/
def endWritable (s : Engine σ) : Engine σ :=
  if s.ws.ending then s
  else { s with ws.ending := true, stack := .finishMaybe :: .ended :: s.stack }

/-- The readable side starts or stops asking for data. -/
def demand (wants : Bool) (s : Engine σ) : Engine σ :=
  { s with
    ts.wants := wants
    calling :=
      if wants && s.ws.writing.isSome && !s.ts.transforming then some (.transform false)
      else s.calling }

/-! ## Completing a chunk -/

def needFinish (s : Engine σ) : Bool :=
  s.ws.ending && decide (s.ws.length = 0) && s.ws.bufferedRequest.isEmpty &&
    !s.ws.bufferProcessing && s.ws.writing.isNone

/-- Writable's `onwrite`. Inside `_write` (`sync`) an error reaches the callback later. -/
def onwrite (er : Option ErrorObject) (sync : Bool) (s : Engine σ) : Engine σ :=
  match s.ws.writing with
  | none => s
  | some req =>
    let s := { s with ws.writing := none, ws.length := s.ws.length - req.chunk.length }
    match er with
    | some e =>
      if sync then (s.nextTick (.writeError req.callback)).emit (.error e)
      else { s with stack := .emitError e :: s.stack }.callUser req.callback false
    | none =>
      if !s.needFinish && !s.ws.bufferProcessing && !s.ws.bufferedRequest.isEmpty then
        { s with
          ws.bufferProcessing := true
          stack := .clearBuffer :: .afterWrite false req.callback :: s.stack }
      else { s with stack := .afterWrite s.needFinish req.callback :: s.stack }

/-- Call the callback of a `_transform` or `_flush` call. -/
def transformCb (k : TransformCb) (er : Option ErrorObject) (sync : Bool) (s : Engine σ) :
    Engine σ :=
  let s := s.note (.transformCb k er.isNone)
  match k, er with
  | .afterTransform, er => { s with ts.transforming := false }.onwrite er sync
  | .done, some e => s.emit (.error e)
  | .done, none => { s with rs.ended := true }.emit .pushNull

/-! ## `_transform` and `_processChunk` -/

/-- `Buffer.concat` -/
def concat (list : List Buffer) (length : ℕ) : Buffer := list.flatten.take length

/-- `this._handle.write(isLast, chunk)` and the two fields set on its result. -/
def nativeWrite (isLast : Bool) (chunk : Buffer) (k : TransformCb) (s : Engine σ) :
    Engine σ :=
  match s.ctx.writeAsync chunk isLast with
  | .error a => s.fail a
  | .ok ctx =>
    { s with ctx, req := ⟨some k, some chunk⟩ }.note (.nativeWrite isLast chunk)

/-- `Vcdiff.prototype._processChunk` with a callback. -/
def processChunk (chunk : Buffer) (isLast forceFlush : Bool) (k : TransformCb)
    (s : Engine σ) : Engine σ :=
  let s := { s with
    vcd.nread := s.vcd.nread + chunk.length
    vcd.buffers := s.vcd.buffers ++ [chunk]
    log := .take chunk :: s.log }
  if s.vcd.minEncodeWindowSize.le (.ofInt s.vcd.nread) || forceFlush ||
      decide (s.vcd.mode = .decode) then
    if s.vcd.closed then s.fail .bindingClosed
    else
      let chunk := concat s.vcd.buffers s.vcd.nread
      { s with vcd.nread := 0, vcd.buffers := [] }.nativeWrite isLast chunk k
  else s.nextTick (.transformCb k)

/-- `Vcdiff.prototype._transform`. In byte mode the chunk is always a buffer. -/
def transform (chunk : Buffer) (isBuffer sync : Bool) (k : TransformCb) (s : Engine σ) :
    Engine σ :=
  let ending := s.ws.ending || s.ws.ended
  let last := ending && decide (s.ws.length = chunk.length)
  if s.vcd.closed then s.transformCb k (some closedError) sync
  else
    let forceFlush := s.vcd.forceFlush || (isBuffer && decide (chunk.length = 0))
    let s := if s.ws.length ≤ chunk.length then { s with vcd.forceFlush := false } else s
    s.processChunk chunk last forceFlush k

/-- `Vcdiff.prototype._flush` -/
def flushRest (k : TransformCb) (s : Engine σ) : Engine σ :=
  { s with vcd.forceFlush := true }.transform [] false false k

/-- Run the call that was started last. -/
def runCalling (c : Calling) (s : Engine σ) : Engine σ :=
  let s := { s with calling := none }
  match c with
  | .transform sync =>
    match s.ws.writing with
    | some req =>
      { s with ts.transforming := true }.transform req.chunk true sync .afterTransform
    | none => s
  | .flush => s.flushRest .done

/-- Go on with a call in progress. -/
def runFrame (f : Frame) (s : Engine σ) : Engine σ :=
  match f with
  | .user => s
  | .cb k => s.transformCb k none false
  | .clearBuffer =>
    match s.ws.writing, s.ws.bufferedRequest with
    | none, req :: rest =>
      { s with ws.bufferedRequest := rest, stack := .clearBuffer :: s.stack }.doWrite req
    | _, _ => { s with ws.bufferProcessing := false }
  | .afterWrite finished callback =>
    let s := { s with stack := .writeCb callback :: s.stack }
    if !finished && decide (s.ws.length = 0) && s.ws.needDrain then
      { s with
        ws.needDrain := false
        drainListeners := []
        stack := .user :: .drain s.drainListeners :: s.stack }
    else s
  | .drain [] => s
  | .drain (callback :: rest) =>
    { s with stack := .user :: .drain rest :: s.stack }.flush callback
  | .writeCb callback => { s with stack := .finishMaybe :: s.stack }.callUser callback true
  | .finishMaybe =>
    if s.needFinish then
      { s with
        ws.prefinished := true
        calling := if s.ws.prefinished then s.calling else some .flush
        stack := .user :: s.stack }
    else s
  | .ended => { s with ws.ended := true }
  | .emitError e => s.emit (.error e)
  | .endListeners [] => s
  | .endListeners (id :: ids) =>
    { s with stack := .endListeners ids :: s.stack }.callUser (some id) true
  | .afterShim => { s with ctx := s.ctx.afterCallback }
  | .sendError => { s with ctx := s.ctx.afterOnerror }

/-! ## The event loop -/

/-- The `onerror` handler set by the constructor. -/
def onerror (err : Error) (s : Engine σ) : Engine σ :=
  { s with vcd.handle := false, vcd.hadError := true }.emit (.error (nativeError err))

/-- `callback(out, finished)` in `_processChunk`, up to the call of `cb`. -/
def callback (k : TransformCb) (out : Buffer) (s : Engine σ) : Engine σ :=
  if s.vcd.hadError then s
  else
    { s with
      rs.buffer := if out.isEmpty then s.rs.buffer else s.rs.buffer ++ [out]
      stack := .cb k :: s.stack }.emit (.push out)

/-- `VcdCtx::AfterShim`, up to its `MakeCallback`. -/
def afterShim (s : Engine σ) : Engine σ :=
  let s := { s with ctx.workReq := none }
  if s.ctx.hasError then { s with stack := .sendError :: s.stack }.onerror s.ctx.err
  else
    let r := s.ctx.finishWrite
    let s := { s with ctx := r.1, stack := .afterShim :: s.stack }
    match s.req.callback with
    | some k => s.callback k r.2.1
    | none => s

def runTick (t : Tick) (s : Engine σ) : Engine σ :=
  match t with
  | .transformCb k => s.transformCb k none false
  | .flushCb id => s.callUser (some id) true
  | .writeError callback => s.callUser callback false
  | .closeCb id => s.emit (.closeCb id)
  | .emitClose => s.emit .closeEvent

/-- 'end': the constructor's listener comes first, then the parked flush callbacks. -/
def emitEnd (s : Engine σ) : Engine σ :=
  let s := { s with
    rs.endEmitted := true
    endListeners := []
    stack := .user :: .endListeners s.endListeners :: s.stack
    log := .endEvent :: s.log }
  s.close none

/-- No call of the stream is in progress, except native code that waits for the tick queue
to drain. -/
def atLoop (s : Engine σ) : Bool :=
  s.calling.isNone && match s.stack with
    | [] | .afterShim :: _ | .sendError :: _ => true
    | _ => false

/-- Code of the user can run. -/
def userPoint (s : Engine σ) : Bool :=
  s.atLoop || (s.calling.isNone && decide (s.stack.head? = some .user))

inductive Act where
  | write (chunk : Buffer)
  | flush (hasCallback : Bool)
  | endWritable
  | close (hasCallback : Bool)
  /-- the consumer of the readable side asks for data, or stops asking -/
  | demand (wants : Bool)
  /-- the consumer reads everything pushed so far -/
  | read
  /-- the worker thread runs `ProcessShim` -/
  | work
  /-- the event loop calls `AfterShim` -/
  | afterShim
  | tick
  | emitEnd
  /-- run on in the calls in progress -/
  | run
  deriving DecidableEq, Repr

/-- Code of the user calls a method, or its consumer of the output acts. -/
def userCall (a : Act) (s : Engine σ) : Engine σ :=
  match a with
  | .write chunk => s.write ⟨chunk, none⟩
  | .flush false => s.flush none
  | .flush true =>
    ({ s with nextFlush := s.nextFlush + 1 }.note (.flush s.nextFlush)).flush
      (some s.nextFlush)
  | .endWritable => s.endWritable
  | .close false => s.close none
  | .close true => { s with nextClose := s.nextClose + 1 }.close (some s.nextClose)
  | .demand wants => s.demand wants
  | .read => { s with rs.buffer := [] }
  | _ => s

/-- One step; `none` when the action is not possible now. -/
def step (K : Coder σ) (s : Engine σ) (a : Act) : Option (Engine σ) :=
  if s.fault.isSome then none
  else match a with
    | .work =>
      match s.ctx.workReq with
      | some w =>
        if s.ctx.workDone then none
        else match s.ctx.processShim K w with
          | .error a => some (s.fail a)
          | .ok (ctx, calls) => some ({ s with ctx }.note (.work calls))
      | none => none
    | .afterShim =>
      if s.calling.isNone && s.stack.isEmpty && s.ctx.workReq.isSome && s.ctx.workDone then
        some s.afterShim
      else none
    | .tick =>
      match s.ticks with
      | t :: ts => if s.atLoop then some ({ s with ticks := ts }.runTick t) else none
      | [] => none
    | .emitEnd =>
      if s.atLoop && s.rs.ended && s.rs.buffer.isEmpty && !s.rs.endEmitted then some s.emitEnd
      else none
    | .run =>
      match s.calling, s.stack with
      | some c, _ => some (s.runCalling c)
      | none, f :: fs => some ({ s with stack := fs }.runFrame f)
      | none, [] => none
    | a => if s.userPoint then some (s.userCall a) else none

end Engine

end NodeVcdiff
