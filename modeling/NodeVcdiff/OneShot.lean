import NodeVcdiff.Outcome

/-!
# One-shot functions

`vcdiffBufferSync` and `vcdiffBuffer`, which the exported `vcdiffEncode`, `vcdiffDecode` and
their `Sync` versions apply to a fresh engine. The second one drives the engine as its only
user: it ends it with the input, reads what it pushes and listens to 'error' and 'end'.
-/

namespace NodeVcdiff

open Script (Number)
open Transition (Reaches anyStep Inevitable)

/-! ## Input -/

/-- The bytes of a code point in UTF-8. -/
def utf8CodePoint (n : ℕ) : Buffer :=
  if n < 0x80 then [UInt8.ofNat n]
  else if n < 0x800 then [UInt8.ofNat (0xC0 + n / 0x40), UInt8.ofNat (0x80 + n % 0x40)]
  else if n < 0x10000 then
    [UInt8.ofNat (0xE0 + n / 0x1000), UInt8.ofNat (0x80 + n / 0x40 % 0x40),
      UInt8.ofNat (0x80 + n % 0x40)]
  else
    [UInt8.ofNat (0xF0 + n / 0x40000), UInt8.ofNat (0x80 + n / 0x1000 % 0x40),
      UInt8.ofNat (0x80 + n / 0x40 % 0x40), UInt8.ofNat (0x80 + n % 0x40)]

/-- A code unit on its own; half a surrogate pair becomes U+FFFD. -/
def utf8CodeUnit (u : UInt16) : Buffer :=
  if 0xD800 ≤ u ∧ u < 0xE000 then utf8CodePoint 0xFFFD else utf8CodePoint u.toNat

/-- `new Buffer(string)`: the UTF-8 bytes of a string, given by its UTF-16 code units. -/
def utf8 : List UInt16 → Buffer
  | [] => []
  | [u] => utf8CodeUnit u
  | u :: v :: rest =>
    if 0xD800 ≤ u ∧ u < 0xDC00 ∧ 0xDC00 ≤ v ∧ v < 0xE000 then
      utf8CodePoint (0x10000 + (u.toNat - 0xD800) * 0x400 + (v.toNat - 0xDC00)) ++ utf8 rest
    else utf8CodeUnit u ++ utf8 (v :: rest)

/-- The first argument of a one-shot function. -/
inductive Input where
  | buffer (b : Buffer)
  | string (codeUnits : List UInt16)

/-- The bytes of an input: strings are decoded, by the function or by Writable. -/
def Input.bytes : Input → Buffer
  | .buffer b => b
  | .string codeUnits => utf8 codeUnits

example : (Input.string [0x61, 0xE9, 0x20AC, 0xD83D, 0xDE00, 0xD800]).bytes =
    [0x61, 0xC3, 0xA9, 0xE2, 0x82, 0xAC, 0xF0, 0x9F, 0x98, 0x80, 0xEF, 0xBF, 0xBD] := by decide

/-! ## The synchronous functions -/

/-- How a synchronous call comes back. -/
inductive SyncOutcome where
  | returned (out : Buffer)
  | thrown (e : ErrorObject)
  | assertionFailed (a : Assertion)
  deriving DecidableEq, Repr

variable {σ : Type*}

/-- `Vcdiff.prototype._processChunk` without a callback. The listener it adds only remembers
the error that `onerror` emits. -/
def Engine.processChunkSync (K : Coder σ) (chunk : Buffer) (isLast : Bool) (s : Engine σ) :
    Engine σ × SyncOutcome :=
  if s.vcd.closed then (s.fail .bindingClosed, .assertionFailed .bindingClosed)
  else
    match s.ctx.writeSync K chunk isLast with
    | .error a => (s.fail a, .assertionFailed a)
    | .ok (ctx, calls, .error err) =>
      ({ s with
        ctx, vcd.handle := false, vcd.hadError := true
        log := .error (nativeError err) :: .work calls :: .nativeWrite isLast chunk :: s.log },
        .thrown (nativeError err))
    | .ok (ctx, calls, .result out finished) =>
      let s := { s with ctx, log := .work calls :: .nativeWrite isLast chunk :: s.log }
      if finished then (s.close none, .returned out)
      else (s.fail .onePass, .assertionFailed .onePass)

/-- `vcdiffBufferSync` -/
def vcdiffBufferSync (K : Coder σ) (engine : Engine σ) (input : Input) :
    Engine σ × SyncOutcome := engine.processChunkSync K input.bytes true

/-! ## The asynchronous functions -/

/-- A call of `vcdiffBuffer`: its engine, what is left to do of its body, its variables,
whether its listeners for 'end' and 'readable' are registered, and what it passed to its
callback so far. -/
structure VcdiffBuffer (σ : Type*) where
  engine : Engine σ
  script : List Engine.Act
  buffers : List Buffer := []
  nread : ℕ := 0
  endListener : Bool := true
  flow : Bool := false
  results : List (Except ErrorObject Buffer) := []

/-- `vcdiffBuffer`: `engine.end(buffer)` writes the input and ends the stream, `flow()` reads. -/
def vcdiffBuffer (engine : Engine σ) (input : Input) : VcdiffBuffer σ where
  engine := engine
  script := [.write input.bytes, .endWritable, .read]

/-- The first argument as `engine.end` takes it: there is input to write, there is none (it is
`null`, `undefined` or a function), or it is a value that Writable does not take. -/
inductive Argument where
  | input (i : Input)
  | nothing
  | invalid

/-- Emitted by Writable's `write` of something that is neither a string nor a buffer. -/
def invalidChunk : ErrorObject := { message := "Invalid non-string/buffer chunk" }

namespace VcdiffBuffer

def onError (err : ErrorObject) (w : VcdiffBuffer σ) : VcdiffBuffer σ :=
  { w with endListener := false, flow := false, results := w.results ++ [.error err] }

def onEnd (w : VcdiffBuffer σ) : VcdiffBuffer σ :=
  { w with
    buffers := [], results := w.results ++ [.ok (Engine.concat w.buffers w.nread)]
    engine := w.engine.close none }

/-- `vcdiffBuffer` with any first argument. `write` of an invalid chunk emits 'error' and queues
nothing; `end` goes on. -/
def call (engine : Engine σ) (argument : Argument) : VcdiffBuffer σ :=
  match argument with
  | .input i => vcdiffBuffer engine i
  | .nothing => { engine, script := [.endWritable, .read] }
  | .invalid => { engine, script := [.endWritable, .read] : VcdiffBuffer σ }.onError invalidChunk

/-- The listeners run when the event is emitted. -/
def hear (e : Event) (w : VcdiffBuffer σ) : VcdiffBuffer σ :=
  match e with
  | .error err => w.onError err
  | .endEvent => if w.endListener then w.onEnd else w
  | _ => w

/-- `flow`: `read` returns everything at once, then nothing; the listener is registered. -/
def flowRead (w : VcdiffBuffer σ) : VcdiffBuffer σ :=
  let chunk := w.engine.rs.buffer.flatten
  let w := { w with flow := true }
  if w.engine.rs.buffer.isEmpty then w
  else { w with buffers := w.buffers ++ [chunk], nread := w.nread + chunk.length }

/-- The engine takes a step, and its new events are heard, oldest first. -/
def perform (K : Coder σ) (a : Engine.Act) (w : VcdiffBuffer σ) : Option (VcdiffBuffer σ) :=
  (w.engine.step K a).map fun engine =>
    let w' := if a = .read then w.flowRead else w
    (engine.log.take (engine.log.length - w.engine.log.length)).foldr hear { w' with engine }

inductive Act where
  /-- the body of the function goes on -/
  | body
  /-- the engine, the worker, 'readable' or the readable side's demand -/
  | engine (a : Engine.Act)
  deriving DecidableEq, Repr

/-- What can happen besides the body: while it runs, only the worker and the calls it made. -/
def allows (w : VcdiffBuffer σ) : Engine.Act → Bool
  | .run | .work => true
  | .afterShim | .tick | .emitEnd | .demand _ => w.script.isEmpty
  | .read => w.script.isEmpty && w.flow
  | _ => false

def step (K : Coder σ) (w : VcdiffBuffer σ) (a : Act) : Option (VcdiffBuffer σ) :=
  match a with
  | .body =>
    match w.script with
    | a :: rest =>
      if w.engine.calling.isNone && w.engine.stack.isEmpty then
        { w with script := rest }.perform K a
      else none
    | [] => none
  | .engine a => if w.allows a then w.perform K a else none

/-- The steps that bring a call on: all but changes of demand that change nothing. -/
def Act.onItsOwn (w : VcdiffBuffer σ) : Act → Prop
  | .body => True
  | .engine a => a.onItsOwn w.engine

def Progress (K : Coder σ) (w w' : VcdiffBuffer σ) : Prop :=
  ∃ a, Act.onItsOwn w a ∧ w.step K a = some w'

end VcdiffBuffer

/-! ## The synchronous outcome -/

/-- What a synchronous call passes on; nothing if an assertion failed. -/
def SyncOutcome.result : SyncOutcome → Option (Except ErrorObject Buffer)
  | .returned out => some (.ok out)
  | .thrown e => some (.error e)
  | .assertionFailed _ => none

/-- A synchronous last write on a fresh context starts, feeds and finishes the coder. -/
theorem writeSync_create (K : Coder σ) (x : σ) (d : Buffer) : ∃ ctx calls,
    (VcdCtx.create x).writeSync K d true = .ok (ctx, calls,
      match K.run x [d] with
      | .ok out => .result out true
      | .error err => .error err) := by
  set c : VcdCtx σ := { VcdCtx.create x with writeInProgress := true, inBuffer := some d } with hc
  have htracks : VcdCtx.Tracks c [] := by constructor <;> simp [hc, VcdCtx.create, Protocol.nil]
  obtain ⟨c', calls, hp, hdone, htr⟩ := VcdCtx.process_spec K d true rfl htracks fun _ => rfl
  obtain ⟨y, -, ht⟩ := VcdCtx.process_trace (c := c) rfl .nil hp
  rw [List.nil_append] at htr ht
  have hlive : c.state ≠ .done := by simp [hc, VcdCtx.create]
  have hstate : c'.state = .done := hdone.stopped.mpr (.inr (.inl rfl))
  obtain ⟨hchunks, -, hfin⟩ := hdone.chunks hlive (List.nil_append calls ▸ htr)
  refine ⟨c'.complete.1, calls, ?_⟩
  have hbegin : (VcdCtx.create x).beginWrite d = .ok c := rfl
  have hwrite : (VcdCtx.create x).writeSync K d true =
      .ok (c'.complete.1, calls, c'.complete.2) := by
    simp [VcdCtx.writeSync, hbegin, hp, bind, Except.bind]
  rw [hwrite]
  by_cases hok : c'.err = .ok
  · -- no call has failed, so `Finish` was the last one
    have hall : ∀ q ∈ calls, q.failed = false := htr.err.mp hok
    obtain ⟨q, hq, hstop⟩ := htr.stopped.mp hstate
    have hqf : q.isFinish = true := by simpa [Call.stops, hall q hq] using hstop
    have hrun : K.run x [d] = .ok (calls.flatMap Call.out) := by
      rw [← hfin ⟨q, hq, hqf⟩]
      exact ht.run_finished htr.protocol hq hqf hall
    have hout : c'.outputBuffer = calls.flatMap Call.out := hdone.output
    rw [hrun, VcdCtx.complete, if_neg (by simp [VcdCtx.hasError, hok])]
    simp [VcdCtx.finishWrite, hstate, hout]
  · obtain ⟨q, hq, hqf⟩ : ∃ q ∈ calls, q.failed = true := by
      by_contra hno
      exact hok (htr.err.mpr fun q hq => by simpa using fun hf => hno ⟨q, hq, hf⟩)
    obtain ⟨rest, hrest⟩ := hchunks
    have hrun : K.run x [d] = .error c'.err := by
      rw [← hdone.errorOf q hq hqf, ← hrest]
      refine ht.run_failed htr.protocol hq hqf rest fun hx => ?_
      rw [hfin hx] at hrest
      simpa using hrest
    rw [hrun, VcdCtx.complete, if_pos (by simp [VcdCtx.hasError, hok])]

theorem sync_eq_run (K : Coder σ) (x : σ) (mode : Mode) (m : Number) (h : ℤ) (input : Input) :
    (vcdiffBufferSync K (.init mode m h x) input).2.result =
      some ((K.run x [input.bytes]).mapError nativeError) := by
  obtain ⟨ctx, calls, hw⟩ := writeSync_create K x input.bytes
  have hctx : (Engine.init mode m h x).ctx = .create x := rfl
  have hopen : (Engine.init mode m h x).vcd.closed = false := rfl
  unfold vcdiffBufferSync Engine.processChunkSync
  rw [hopen, if_neg (by simp), hctx, hw]
  cases K.run x [input.bytes] <;> rfl

end NodeVcdiff
