import NodeVcdiff.Coder

/-!
# The native context

`VcdCtx` with its write, process, finish, error and close steps. Failed assertions are
values of `Assertion`; a step that trips one does not return a context.
-/

namespace NodeVcdiff

/-- `VcdCtx::State`. -/
inductive State where
  | idle
  | processing
  | finalizing
  | done
  deriving DecidableEq, Repr

/-- The assertions of the native context and of `_processChunk`, with and without callback. -/
inductive Assertion where
  | writeAfterFinalization
  | writeInProgress
  | closePending
  | processAfterFinalization
  | outputNotEmpty
  | bindingClosed
  | onePass
  deriving DecidableEq, Repr

/-- `VcdCtx::WorkData`: what the worker needs of a queued write. -/
structure WorkData where
  data : Buffer
  isLast : Bool
  deriving DecidableEq, Repr

/-- `VcdCtx`. `workReq` is the queued work request (`work_req_.data` while the request is
with libuv), `workDone` tells that `ProcessShim` has run for it. -/
structure VcdCtx (σ : Type*) where
  coder : Option σ
  inBuffer : Option Buffer := none
  workReq : Option WorkData := none
  workDone : Bool := false
  writeInProgress : Bool := false
  pendingClose : Bool := false
  state : State := .idle
  err : Error := .ok
  outputBuffer : Buffer := []

namespace VcdCtx

variable {σ : Type*} (K : Coder σ)

/-- The constructor: a context that owns `coder`. -/
def create (coder : σ) : VcdCtx σ := { coder := some coder }

def reset (c : VcdCtx σ) : VcdCtx σ :=
  { c with pendingClose := false, writeInProgress := false, coder := none }

def close (c : VcdCtx σ) : VcdCtx σ :=
  if c.writeInProgress then { c with pendingClose := true } else c.reset

def hasError (c : VcdCtx σ) : Bool := decide (c.err ≠ .ok)

/-- The part of `Write` before the sync and async versions part. -/
def beginWrite (c : VcdCtx σ) (buffer : Buffer) : Except Assertion (VcdCtx σ) :=
  if c.coder.isNone then .error .writeAfterFinalization
  else if c.writeInProgress then .error .writeInProgress
  else if c.pendingClose then .error .closePending
  else .ok { c with writeInProgress := true, inBuffer := some buffer }

/-- `Write` with `async`: the data is queued for the worker. -/
def writeAsync (c : VcdCtx σ) (buffer : Buffer) (isLast : Bool) :
    Except Assertion (VcdCtx σ) :=
  (c.beginWrite buffer).map fun c =>
    { c with workReq := some ⟨buffer, isLast⟩, workDone := false }

/-- `Process` while `IDLE`. -/
def processIdle (c : VcdCtx σ) (x : σ) : VcdCtx σ × List Call :=
  let a := K.start x
  ({ c with
      coder := some a.next
      outputBuffer := c.outputBuffer ++ a.out
      err := a.err
      state := if a.err ≠ .ok then .done else .processing },
    [.start a.err a.out])

/-- `Process` while `PROCESSING`. -/
def processData (c : VcdCtx σ) (x : σ) (data : Buffer) (isLast : Bool) :
    VcdCtx σ × List Call :=
  let a := K.process x data
  ({ c with
      coder := some a.next
      outputBuffer := c.outputBuffer ++ a.out
      err := a.err
      state := if a.err ≠ .ok then .done else if isLast then .finalizing else .processing },
    [.process data a.err a.out])

/-- `Process` while `FINALIZING`. -/
def processFinalizing (c : VcdCtx σ) (x : σ) : VcdCtx σ × List Call :=
  let a := K.finish x
  ({ c with
      coder := some a.next
      outputBuffer := c.outputBuffer ++ a.out
      err := a.err
      state := .done },
    [.finish a.err a.out])

/-- Run one of the three stages when the context is in its state. -/
def stage (want : State) (f : VcdCtx σ → σ → VcdCtx σ × List Call)
    (p : VcdCtx σ × List Call) : VcdCtx σ × List Call :=
  match p.1.coder with
  | none => p
  | some x =>
    if p.1.state = want then
      let q := f p.1 x
      (q.1, p.2 ++ q.2)
    else p

/-- `Process`: the three stages fall through into each other. -/
def process (c : VcdCtx σ) (data : Buffer) (isLast : Bool) :
    Except Assertion (VcdCtx σ × List Call) :=
  if c.coder.isNone then .error .processAfterFinalization
  else if c.state = .idle ∧ c.outputBuffer ≠ [] then .error .outputNotEmpty
  else .ok <|
    stage .finalizing (processFinalizing K) <|
    stage .processing (fun c x => processData K c x data isLast) <|
    stage .idle (processIdle K) (c, [])

/-- `FinishWrite`: the returned buffer and the `finished` flag. -/
def finishWrite (c : VcdCtx σ) : VcdCtx σ × Buffer × Bool :=
  ({ c with writeInProgress := false, inBuffer := none, outputBuffer := [] },
    c.outputBuffer, decide (c.state = .done))

/-- The part of `SendError` after the call to `onerror`. -/
def afterOnerror (c : VcdCtx σ) : VcdCtx σ :=
  let c := { c with writeInProgress := false }
  if c.pendingClose then c.close else c

/-- The part of `AfterShim` after the call to `callback`. -/
def afterCallback (c : VcdCtx σ) : VcdCtx σ :=
  if c.pendingClose then c.close else c

/-- `ProcessShim`: the worker runs `Process` on the queued data. -/
def processShim (c : VcdCtx σ) (w : WorkData) :
    Except Assertion (VcdCtx σ × List Call) :=
  (c.process K w.data w.isLast).map fun p => ({ p.1 with workDone := true }, p.2)

/-- How a write comes back: through `onerror`, or with a buffer and the `finished` flag. -/
inductive Completion where
  | error (err : Error)
  | result (out : Buffer) (finished : Bool)
  deriving DecidableEq, Repr

/-- `CheckError` followed by `SendError` or `FinishWrite`, as both versions of a write do
once `Process` has run. The callee of `onerror` leaves the context alone here. -/
def complete (c : VcdCtx σ) : VcdCtx σ × Completion :=
  if c.hasError then (c.afterOnerror, .error c.err)
  else
    let r := c.finishWrite
    (r.1, .result r.2.1 r.2.2)

/-- `Write` without `async`: the calls it makes and how it comes back. -/
def writeSync (c : VcdCtx σ) (buffer : Buffer) (isLast : Bool) :
    Except Assertion (VcdCtx σ × List Call × Completion) := do
  let c ← c.beginWrite buffer
  let p ← c.process K buffer isLast
  let q := p.1.complete
  .ok (q.1, p.2, q.2)

/-! ## What the end of a write leaves alone -/

/-- `c'` has the queued work, the result and the state of `c`; its coder may be destroyed. -/
structure SameWork (c c' : VcdCtx σ) : Prop where
  workReq : c'.workReq = c.workReq
  workDone : c'.workDone = c.workDone
  inBuffer : c'.inBuffer = c.inBuffer
  state : c'.state = c.state
  err : c'.err = c.err
  outputBuffer : c'.outputBuffer = c.outputBuffer
  coder : c'.coder = c.coder ∨ c'.coder = none

theorem sameWork_close (c : VcdCtx σ) : SameWork c c.close := by
  unfold close reset
  split
  · exact ⟨rfl, rfl, rfl, rfl, rfl, rfl, .inl rfl⟩
  · exact ⟨rfl, rfl, rfl, rfl, rfl, rfl, .inr rfl⟩

theorem sameWork_afterCallback (c : VcdCtx σ) : SameWork c c.afterCallback := by
  unfold afterCallback
  split
  · exact sameWork_close c
  · exact ⟨rfl, rfl, rfl, rfl, rfl, rfl, .inl rfl⟩

theorem sameWork_afterOnerror (c : VcdCtx σ) : SameWork c c.afterOnerror := by
  unfold afterOnerror
  dsimp only
  split
  · exact { sameWork_close { c with writeInProgress := false } with }
  · exact ⟨rfl, rfl, rfl, rfl, rfl, rfl, .inl rfl⟩

end VcdCtx

end NodeVcdiff
