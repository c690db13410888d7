import NodeVcdiff.Transducer
import NodeVcdiff.Finishing

/-!
# The calls are the coder's own

What the history shows of the coder is an execution of the coder itself, so its outcome is
the outcome of feeding the chunks that were handed over.
-/

namespace NodeVcdiff

open Transition (Reaches)
open Transducer.Machine (run_of_start runFrom_of_feed map_append)

variable {σ : Type*}

/-- The answer of a step as a transducer gives it. -/
def Answer.toExcept (a : Answer σ) : Except Error (Buffer × σ) :=
  if a.err = .ok then .ok (a.out, a.next) else .error a.err

/-- A coder as a transducer. -/
def Coder.machine (K : Coder σ) : Transducer.Machine σ Buffer UInt8 Error where
  start x := (K.start x).toExcept
  feed x d := (K.process x d).toExcept
  finish x := (K.finish x).toExcept

/-- Start, a sequence of chunks, finish: the bytes appended, or the first error. -/
abbrev Coder.run (K : Coder σ) (x : σ) (ds : List Buffer) : Except Error Buffer :=
  K.machine.run x ds

/-- The calls that `K`, as `x` at first, answers itself, and what it has become. -/
inductive Coder.Trace (K : Coder σ) (x : σ) : List Call → σ → Prop where
  | nil : Trace K x [] x
  | start {cs : List Call} {y : σ} : Trace K x cs y →
      Trace K x (cs ++ [.start (K.start y).err (K.start y).out]) (K.start y).next
  | process {cs : List Call} {y : σ} (d : Buffer) : Trace K x cs y →
      Trace K x (cs ++ [.process d (K.process y d).err (K.process y d).out])
        (K.process y d).next
  | finish {cs : List Call} {y : σ} : Trace K x cs y →
      Trace K x (cs ++ [.finish (K.finish y).err (K.finish y).out]) (K.finish y).next

/-- The chunks that a list of calls hands to `Process`. -/
def Call.chunks (cs : List Call) : List Buffer :=
  cs.filterMap fun | .process d _ _ => some d | _ => none

/-- A call that stops the coder is the last one. -/
theorem Protocol.eq_of_stops {cs : List Call} {p q : Call} (h : Protocol (cs ++ [p]))
    (hq : q ∈ cs ++ [p]) (hs : q.stops = true) : q = p := by
  rcases List.mem_append.mp hq with hq | hq
  · obtain ⟨before, after, rfl⟩ := List.append_of_mem hq
    have hafter := h.stops_only_last (show _ = before ++ q :: (after ++ [p]) by simp) hs
    simp at hafter
  · exact List.mem_singleton.mp hq

namespace Coder

variable {K : Coder σ} {x y : σ} {cs : List Call}

theorem chunks_append (cs ds : List Call) :
    Call.chunks (cs ++ ds) = Call.chunks cs ++ Call.chunks ds := List.filterMap_append

theorem flatten_chunks (cs : List Call) : (Call.chunks cs).flatten = cs.flatMap Call.data := by
  induction cs with
  | nil => rfl
  | cons c cs ih =>
    cases c with
    | process d e o => exact congrArg (d ++ ·) ih
    | _ => exact ih

theorem toExcept_ok {a : Answer σ} (h : a.err = .ok) : a.toExcept = .ok (a.out, a.next) := by
  rw [Answer.toExcept, if_pos h]

theorem toExcept_error {a : Answer σ} (h : a.err ≠ .ok) : a.toExcept = .error a.err := by
  rw [Answer.toExcept, if_neg h]

theorem failed_eq_false {q : Call} : q.failed = false ↔ q.err = .ok := by
  simp [Call.failed]

theorem failed_eq_true {q : Call} : q.failed = true ↔ q.err ≠ .ok := by
  simp [Call.failed]

theorem Trace.eq_of_nil (h : K.Trace x cs y) (hcs : cs = []) : y = x := by
  cases h with
  | nil => rfl
  | start | process | finish => simp at hcs

/-- As long as the coder can be fed, its outcome is what it appended and the outcome of the
rest. -/
theorem Trace.run_live (h : K.Trace x cs y) (hp : Protocol cs) (hne : cs ≠ [])
    (hlive : ∀ q ∈ cs, q.isFinish = false ∧ q.failed = false) (ds : List Buffer) :
    K.run x (Call.chunks cs ++ ds) =
      (K.machine.runFrom y ds).map (cs.flatMap Call.out ++ ·) := by
  induction h generalizing ds with
  | nil => exact absurd rfl hne
  | @start cs y h ih =>
    have hstart := (hlive (.start (K.start y).err (K.start y).out) (by simp)).2
    rcases hp.snoc_cases with ⟨rfl, -⟩ | ⟨-, -, -, hno⟩
    · obtain rfl := h.eq_of_nil rfl
      have hs : K.machine.start y = .ok ((K.start y).out, (K.start y).next) :=
        toExcept_ok (failed_eq_false.mp hstart)
      simp [run_of_start hs, Call.chunks, Call.out]
    · cases hno
  | @process cs y d h ih =>
    have hlast := (hlive (.process d (K.process y d).err (K.process y d).out) (by simp)).2
    have hf : K.machine.feed y d = .ok ((K.process y d).out, (K.process y d).next) :=
      toExcept_ok (failed_eq_false.mp hlast)
    rcases hp.snoc_cases with ⟨-, hno⟩ | ⟨hp', hne', hlive', -⟩
    · cases hno
    · have hrun := ih hp' hne' hlive' (d :: ds)
      rw [runFrom_of_feed hf, map_append] at hrun
      have hchunks : Call.chunks (cs ++ [.process d (K.process y d).err (K.process y d).out]) ++ ds =
          Call.chunks cs ++ d :: ds := by
        rw [chunks_append, List.append_assoc]; rfl
      rw [hchunks, hrun, List.flatMap_append, List.flatMap_singleton]
      rfl
  | @finish cs y h ih =>
    have := (hlive (.finish (K.finish y).err (K.finish y).out) (by simp)).1
    cases this

/-- A failed call is the outcome, whatever would have followed. -/
theorem Trace.run_failed (h : K.Trace x cs y) (hp : Protocol cs) {q : Call} (hq : q ∈ cs)
    (hf : q.failed = true) (ds : List Buffer)
    (hfin : (∃ r ∈ cs, r.isFinish = true) → ds = []) :
    K.run x (Call.chunks cs ++ ds) = .error q.err := by
  have hstop : q.stops = true := by simp [Call.stops, hf]
  cases h with
  | nil => cases hq
  | @start cs y h =>
    obtain rfl := hp.eq_of_stops hq hstop
    rcases hp.snoc_cases with ⟨rfl, -⟩ | ⟨-, -, -, hno⟩
    · obtain rfl := h.eq_of_nil rfl
      have hs : K.machine.start y = .error (K.start y).err :=
        toExcept_error (failed_eq_true.mp hf)
      simp [run, Transducer.Machine.run, hs, Except.bind, Call.err]
    · cases hno
  | @process cs y d h =>
    obtain rfl := hp.eq_of_stops hq hstop
    have hfeed : K.machine.feed y d = .error (K.process y d).err :=
      toExcept_error (failed_eq_true.mp hf)
    rcases hp.snoc_cases with ⟨-, hno⟩ | ⟨hp', hne', hlive', -⟩
    · cases hno
    · have hrun := h.run_live hp' hne' hlive' (d :: ds)
      rw [Transducer.Machine.runFrom, hfeed] at hrun
      rw [chunks_append, List.append_assoc]
      exact hrun
  | @finish cs y h =>
    obtain rfl := hp.eq_of_stops hq hstop
    have hfinish : K.machine.finish y = .error (K.finish y).err :=
      toExcept_error (failed_eq_true.mp hf)
    obtain rfl := hfin ⟨_, hq, rfl⟩
    rcases hp.snoc_cases with ⟨-, hno⟩ | ⟨hp', hne', hlive', -⟩
    · cases hno
    · have hrun := h.run_live hp' hne' hlive' []
      rw [Transducer.Machine.runFrom, hfinish] at hrun
      rw [chunks_append, List.append_assoc]
      exact hrun

/-- A coder that has finished without failing has its appended bytes as outcome. -/
theorem Trace.run_finished (h : K.Trace x cs y) (hp : Protocol cs) {q : Call} (hq : q ∈ cs)
    (hfin : q.isFinish = true) (hall : ∀ r ∈ cs, r.failed = false) :
    K.run x (Call.chunks cs) = .ok (cs.flatMap Call.out) := by
  have hstop : q.stops = true := by simp [Call.stops, hfin]
  cases h with
  | nil => cases hq
  | start h => obtain rfl := hp.eq_of_stops hq hstop; cases hfin
  | process d h => obtain rfl := hp.eq_of_stops hq hstop; cases hfin
  | @finish cs y h =>
    have hlast := hall (.finish (K.finish y).err (K.finish y).out) (by simp)
    have hfinish : K.machine.finish y = .ok ((K.finish y).out, (K.finish y).next) :=
      toExcept_ok (failed_eq_false.mp hlast)
    rcases hp.snoc_cases with ⟨-, hno⟩ | ⟨hp', hne', hlive', -⟩
    · cases hno
    · have hrun := h.run_live hp' hne' hlive' []
      rw [Transducer.Machine.runFrom, hfinish] at hrun
      have hchunks : Call.chunks (cs ++ [.finish (K.finish y).err (K.finish y).out]) =
          Call.chunks cs ++ [] := chunks_append _ _
      rw [hchunks, hrun, List.flatMap_append, List.flatMap_singleton]
      rfl

end Coder

end NodeVcdiff
