import NodeVcdiff.Places
import NodeVcdiff.Ledger

/-!
# Which call a callback belongs to

The stream stores the callback of a `_transform` or `_flush` call without telling one call
from another. Here the calls are numbered, and the numbers move with the closures `cb`: to
the request of the native write, to the tick queue and to the stack.
-/

namespace NodeVcdiff

open Script (Number)
open Ledger (Mark Phase Kept)
open Transition (Reaches anyStep Inevitable)

structure Numbered (σ : Type*) where
  engine : Engine σ
  /-- the `_transform` and `_flush` calls so far -/
  calls : ℕ := 0
  /-- the call whose `cb` the `callback` on the request calls -/
  request : Option ℕ := none
  /-- the calls whose `cb` waits in the tick queue, and on the stack -/
  ticks : List ℕ := []
  frames : List ℕ := []
  trace : List (Mark Buffer) := []

namespace Numbered

variable {σ : Type*}

def init (mode : Mode) (minEncodeWindowSize : Number) (highWaterMark : ℤ) (coder : σ) :
    Numbered σ where
  engine := .init mode minEncodeWindowSize highWaterMark coder

def note (m : Mark Buffer) (t : Numbered σ) : Numbered σ := { t with trace := m :: t.trace }

/-- A `_transform` or `_flush` call: a closed stream calls `cb` with an error, otherwise
`_processChunk` stores it on the request or queues it. -/
def call (s : Engine σ) (t : Numbered σ) : Numbered σ :=
  let n := t.calls
  let closed := t.engine.vcd.closed
  let t := { t with engine := s, calls := n + 1 }.note (.called n)
  if closed then t.note (.answered n false)
  else if s.fault.isSome then t
  else match s.log.head? with
    | some (.nativeWrite _ _) => { t with request := some n }.note (.installed n)
    | _ => { t with ticks := t.ticks ++ [n] }

/-- `run`: a call starts, or a `cb` on the stack is called. -/
def run (s : Engine σ) (t : Numbered σ) : Numbered σ :=
  match t.engine.calling, t.engine.ws.writing with
  | some (.transform _), none => { t with engine := s }
  | some _, _ => t.call s
  | none, _ =>
    match t.engine.stack, t.frames with
    | .cb _ :: _, n :: ns => { t with engine := s, frames := ns }.note (.answered n true)
    | _, _ => { t with engine := s }

def tick (s : Engine σ) (t : Numbered σ) : Numbered σ :=
  match t.engine.ticks, t.ticks with
  | .transformCb _ :: _, n :: ns => { t with engine := s, ticks := ns }.note (.answered n true)
  | _, _ => { t with engine := s }

/-- `AfterShim`: after an error the callback is left alone, otherwise it pushes the output and
calls `cb` behind that. -/
def afterShim (s : Engine σ) (t : Numbered σ) : Numbered σ :=
  match t.request with
  | none => { t with engine := s }
  | some n =>
    if t.engine.ctx.hasError then { t with engine := s }.note (.failed n)
    else
      let t' := { t with engine := s }.note (.invoked n)
      if t.engine.vcd.hadError then t'
      else { t' with frames := n :: t'.frames }.note (.pushed n t.engine.ctx.finishWrite.2.1)

/-- A step of the stream, with the numbers in tow. -/
def step (K : Coder σ) (t : Numbered σ) (a : Engine.Act) : Option (Numbered σ) :=
  (t.engine.step K a).map fun s =>
    match a with
    | .run => t.run s
    | .tick => t.tick s
    | .afterShim => t.afterShim s
    | _ => { t with engine := s }

variable {K : Coder σ} {t t' : Numbered σ} {a : Engine.Act} {s : Engine σ}

theorem engine_run : (t.run s).engine = s := by
  unfold run call
  split
  · rfl
  · dsimp only
    split
    · rfl
    · split
      · rfl
      · split <;> rfl
  · split <;> rfl

theorem engine_tick : (t.tick s).engine = s := by
  unfold tick
  split <;> rfl

theorem engine_afterShim : (t.afterShim s).engine = s := by
  unfold afterShim
  split
  · rfl
  · split
    · rfl
    · dsimp only
      split <;> rfl

/-- The numbers do not change what the stream does. -/
theorem step_engine : (t.step K a).map Numbered.engine = t.engine.step K a := by
  unfold step
  rw [Option.map_map]
  refine Eq.trans ?_ Option.map_id'
  congr 1
  funext s
  cases a <;> first | rfl | exact engine_run | exact engine_tick | exact engine_afterShim

theorem engine_of_step (h : t.step K a = some t') : t.engine.step K a = some t'.engine := by
  rw [← step_engine, h]
  rfl

theorem exists_step (h : t.engine.step K a = some s) :
    ∃ t', t.step K a = some t' ∧ t'.engine = s := by
  rw [← step_engine] at h
  obtain ⟨t', ht, he⟩ := Option.map_eq_some_iff.mp h
  exact ⟨t', ht, he⟩

variable {mode : Mode} {m : Number} {h : ℤ} {x : σ}

/-- A run with numbers is a run of the stream. -/
theorem engine_of_reaches (hr : Reaches (step K) anyStep (init mode m h x) t) :
    Reaches (Engine.step K) anyStep (.init mode m h x) t.engine := by
  induction hr with
  | refl => exact .refl
  | tail _ _ hs ih => exact ih.tail trivial (engine_of_step hs)

/-- Every run of the stream can be numbered. -/
theorem exists_reaches (hr : Reaches (Engine.step K) anyStep (.init mode m h x) s) :
    ∃ t, Reaches (step K) anyStep (init mode m h x) t ∧ t.engine = s := by
  induction hr with
  | refl => exact ⟨_, .refl, rfl⟩
  | tail _ _ hs ih =>
    obtain ⟨t, ht, rfl⟩ := ih
    obtain ⟨t', hs', rfl⟩ := exists_step hs
    exact ⟨t', ht.tail trivial hs', rfl⟩

end Numbered

end NodeVcdiff
