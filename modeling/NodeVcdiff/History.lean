import NodeVcdiff.Coder

/-!
# Histories of a stream

Every observable step of a stream is noted as an `Event`. A history lists the events with
the newest first; what was written, processed or pushed so far is a function of it.
-/

namespace NodeVcdiff

/-- An `Error` object: `errno` and `code` are set by `onerror` only. -/
structure ErrorObject where
  message : String
  errno : Option ℕ := none
  code : Option String := none
  deriving DecidableEq, Repr

/-- The object built by the `onerror` handler for a native error. -/
def nativeError (err : Error) : ErrorObject :=
  { message := getErrorString err, errno := some err.errno, code := codes err.errno }

def closedError : ErrorObject := { message := "vcdiff binding closed" }

def writeAfterEnd : ErrorObject := { message := "write after end" }

/-- The callback that a `_transform` or `_flush` call was given: Transform's
`afterTransform`, or the continuation of its 'prefinish' listener. -/
inductive TransformCb where
  | afterTransform
  | done
  deriving DecidableEq, Repr

inductive Event where
  /-- `write` queued the chunk -/
  | accept (chunk : Buffer)
  /-- `flush` was called with the callback numbered `id` -/
  | flush (id : ℕ)
  /-- `_processChunk` added the chunk to `_buffers` -/
  | take (chunk : Buffer)
  | nativeWrite (isLast : Bool) (chunk : Buffer)
  /-- the worker ran `VcdCtx::Process`, which made these calls -/
  | work (calls : List Call)
  | push (out : Buffer)
  | pushNull
  /-- the callback of a `_transform` or `_flush` call was called, `ok` without an error -/
  | transformCb (k : TransformCb) (ok : Bool)
  | error (e : ErrorObject)
  /-- the callback of a `flush` was called, `ok` without an error -/
  | flushCb (id : ℕ) (ok : Bool)
  | close
  /-- `close` threw: there was no handle to close -/
  | closeThrew
  | nativeClose
  | closeCb (id : ℕ)
  | closeEvent
  | endEvent
  deriving DecidableEq, Repr

abbrev History := List Event

namespace Event

/-- An 'error' event raised by the binding. -/
def nativeErrorOf : Event → Option ErrorObject
  | error e => if e.errno.isSome then some e else none
  | _ => none

def isError : Event → Bool
  | error _ => true
  | _ => false

end Event

namespace History

/-- The bytes accepted by `write`, in order. -/
def written : History → Buffer
  | [] => []
  | .accept c :: h => written h ++ c
  | _ :: h => written h

/-- The bytes that `_processChunk` put into `_buffers`. -/
def taken : History → Buffer
  | [] => []
  | .take c :: h => taken h ++ c
  | _ :: h => taken h

/-- The bytes handed to the native write. -/
def handed : History → Buffer
  | [] => []
  | .nativeWrite _ c :: h => handed h ++ c
  | _ :: h => handed h

/-- The calls received by the coder, oldest first. -/
def calls : History → List Call
  | [] => []
  | .work cs :: h => calls h ++ cs
  | _ :: h => calls h

/-- The bytes passed to `Coder::Process`. -/
def processed (h : History) : Buffer := h.calls.flatMap Call.data

/-- The bytes the coder appended. -/
def appended (h : History) : Buffer := h.calls.flatMap Call.out

/-- The bytes pushed to the readable side. -/
def pushed : History → Buffer
  | [] => []
  | .push o :: h => pushed h ++ o
  | _ :: h => pushed h

/-- A native write with the `isLast` flag was made. -/
def lastWritten (h : History) : Bool :=
  h.any fun | .nativeWrite true _ => true | _ => false

/-- Some coder call failed. -/
def hasFailed (h : History) : Bool := h.calls.any Call.failed

/-- A `_transform` or `_flush` call was refused: the stream was closed. -/
def Refused (h : History) : Prop := ∃ k, Event.transformCb k false ∈ h

/-- The 'error' events of the binding, newest first. -/
def nativeErrors (h : History) : List ErrorObject := h.filterMap Event.nativeErrorOf

@[simp] theorem refused_cons {e : Event} {h : History} :
    Refused (e :: h) ↔ (∃ k, e = .transformCb k false) ∨ h.Refused := by
  simp only [Refused, List.mem_cons, exists_or, eq_comm]

/-- An entry of a history that has grown is an old entry, or a new one on top of the old
history. -/
theorem split_append {new h newer older : History} {e : Event}
    (heq : new ++ h = newer ++ e :: older) :
    (∃ mid, h = mid ++ e :: older) ∨ (e ∈ new ∧ ∃ mid, older = mid ++ h) := by
  rcases List.append_eq_append_iff.mp heq with ⟨mid, rfl, hh⟩ | ⟨mid, rfl, hh⟩
  · exact .inl ⟨mid, hh⟩
  · cases mid with
    | nil => exact .inl ⟨[], hh.symm⟩
    | cons e' mid =>
      obtain ⟨rfl, hrest⟩ := List.cons.inj hh
      exact .inr ⟨List.mem_append_right _ List.mem_cons_self, mid, hrest⟩

end History

end NodeVcdiff
