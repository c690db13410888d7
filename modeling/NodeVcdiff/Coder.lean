import Mathlib.Algebra.Order.Ring.Nat
import Mathlib.Data.List.Basic

/-!
# The coder interface of the native context

`VcdCtx::Coder`, its error codes and its two implementations over the streaming encoder and
decoder of open-vcdiff. Coders are arbitrary: a state and three steps that may each succeed
or fail and append bytes.
-/

namespace NodeVcdiff

/-- The contents of a `Buffer`. -/
abbrev Buffer := List UInt8

/-- `VcdCtx::Error`. -/
inductive Error where
  | ok
  | initError
  | encodeError
  | decodeError
  deriving DecidableEq, Repr

/-- The number sent to `onerror`: the position in the enumeration. -/
def Error.errno : Error → ℕ
  | .ok => 0
  | .initError => 1
  | .encodeError => 2
  | .decodeError => 3

/-- `VcdCtx::GetErrorString`. -/
def getErrorString : Error → String
  | .initError => "Vcdiff initialization error"
  | .encodeError => "Vcdiff encode error"
  | .decodeError => "Vcdiff decode error"
  | .ok => "Vcdiff unknown error"

/-- The reverse direction of `exports.codes`: the name stored under a number. -/
def codes (errno : ℕ) : Option String :=
  if errno = Error.initError.errno then some "VCD_INIT_ERROR"
  else if errno = Error.encodeError.errno then some "VCD_ENCODE_ERROR"
  else if errno = Error.decodeError.errno then some "VCD_DECODE_ERROR"
  else none

theorem errno_injective : Function.Injective Error.errno := by
  intro a b h
  cases a <;> cases b <;> first | rfl | cases h

/-- Every error that can be sent has a code of its own. -/
theorem codes_errno_ne_none {e : Error} (he : e ≠ .ok) : codes e.errno ≠ none := by
  cases e with
  | ok => exact absurd rfl he
  | initError | encodeError | decodeError => decide

/-- What one coder step returns: its verdict, the bytes it appended, the coder afterwards. -/
structure Answer (σ : Type*) where
  err : Error
  out : Buffer
  next : σ

/-- `VcdCtx::Coder`. -/
structure Coder (σ : Type*) where
  start : σ → Answer σ
  process : σ → Buffer → Answer σ
  finish : σ → Answer σ

/-- One call received by a coder, with what it answered. -/
inductive Call where
  | start (err : Error) (out : Buffer)
  | process (data : Buffer) (err : Error) (out : Buffer)
  | finish (err : Error) (out : Buffer)
  deriving DecidableEq, Repr

namespace Call

def err : Call → Error
  | start e _ => e
  | process _ e _ => e
  | finish e _ => e

/-- The bytes the coder appended during the call. -/
def out : Call → Buffer
  | start _ o => o
  | process _ _ o => o
  | finish _ o => o

/-- The input bytes a call hands to `Coder::Process`. -/
def data : Call → Buffer
  | process d _ _ => d
  | _ => []

def isStart : Call → Bool
  | start _ _ => true
  | _ => false

def isFinish : Call → Bool
  | finish _ _ => true
  | _ => false

def failed (c : Call) : Bool := decide (c.err ≠ .ok)

end Call

/-- The part of `open_vcdiff::VCDiffStreamingEncoder` that the binding calls. -/
structure StreamingEncoder (ε : Type*) where
  startEncodingToInterface : ε → Bool × Buffer × ε
  encodeChunkToInterface : ε → Buffer → Bool × Buffer × ε
  finishEncodingToInterface : ε → Bool × Buffer × ε

/-- The part of `open_vcdiff::VCDiffStreamingDecoder` that the binding calls. -/
structure StreamingDecoder (δ : Type*) where
  startDecoding : δ → Buffer → δ
  decodeChunkToInterface : δ → Buffer → Bool × Buffer × δ
  finishDecoding : δ → Bool × δ

/-- `VcdEncoder`. The verdict of `FinishEncodingToInterface` is dropped. -/
def vcdEncoder {ε : Type*} (encoder : StreamingEncoder ε) : Coder ε where
  start x :=
    let r := encoder.startEncodingToInterface x
    ⟨if r.1 then .ok else .initError, r.2.1, r.2.2⟩
  process x data :=
    let r := encoder.encodeChunkToInterface x data
    ⟨if r.1 then .ok else .encodeError, r.2.1, r.2.2⟩
  finish x :=
    let r := encoder.finishEncodingToInterface x
    ⟨.ok, r.2.1, r.2.2⟩

/-- `VcdDecoder` on the buffer it was given as dictionary. -/
def vcdDecoder {δ : Type*} (decoder : StreamingDecoder δ) (dictionary : Buffer) : Coder δ where
  start x := ⟨.ok, [], decoder.startDecoding x dictionary⟩
  process x data :=
    let r := decoder.decodeChunkToInterface x data
    ⟨if r.1 then .ok else .decodeError, r.2.1, r.2.2⟩
  finish x :=
    let r := decoder.finishDecoding x
    ⟨if r.1 then .ok else .decodeError, [], r.2⟩

end NodeVcdiff
