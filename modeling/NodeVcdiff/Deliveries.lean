import NodeVcdiff.Feeding

/-!
# What has been delivered

Output is pushed when a native write completes, all of it at once. What is handed over and
not processed and pushed is the buffer of the native write that is under way.
-/

namespace NodeVcdiff

open Script (Number)
open Transition (Reaches)

namespace History

variable {h new : History}

/-- The bytes processed before the last push. -/
def delivered : History → Buffer
  | [] => []
  | .push _ :: h => processed h
  | _ :: h => delivered h

theorem processed_isPrefix (e : Event) (h : History) : processed h <+: processed (e :: h) := by
  cases e with
  | work cs =>
    rw [processed, processed, calls, List.flatMap_append]
    exact List.prefix_append _ _
  | _ => exact List.prefix_rfl

theorem delivered_isPrefix_processed (h : History) : delivered h <+: processed h := by
  induction h with
  | nil => exact List.prefix_rfl
  | cons e h ih =>
    cases e with
    | push o => exact List.prefix_rfl
    | _ => exact ih.trans (processed_isPrefix _ h)

/-- What was delivered stays delivered. -/
theorem delivered_isPrefix (new h : History) : delivered h <+: delivered (new ++ h) := by
  induction new with
  | nil => exact List.prefix_rfl
  | cons e new ih =>
    cases e with
    | push o => exact ih.trans (delivered_isPrefix_processed (new ++ h))
    | _ => exact ih

theorem flow_delivered : delivered (h.filter Event.isFlow) = delivered h :=
  flow_eq (fun h => (delivered h, calls h))
    (fun e _ _ heq => by
      obtain ⟨h1, h2⟩ := Prod.mk.inj heq
      cases e <;> simp [delivered, calls, processed, h1, h2])
    (fun e _ he => by cases e <;> first | rfl | cases he) |> congrArg Prod.fst

/-- Each push hands on all the output there was. -/
def PushesAll (h : History) : Prop :=
  ∀ newer o older, h = newer ++ .push o :: older → pushed (.push o :: older) = appended older

theorem PushesAll.append (hp : h.PushesAll) (new : History) (hn : ∀ o, .push o ∉ new) :
    History.PushesAll (new ++ h) := by
  intro newer o older heq
  rcases split_append heq with ⟨mid, hh⟩ | ⟨hm, -⟩
  · exact hp mid o older hh
  · exact absurd hm (hn o)

theorem PushesAll.of_append (new : History) (hp : History.PushesAll (new ++ h)) : h.PushesAll :=
  fun newer o older heq => hp (new ++ newer) o older (by rw [heq, List.append_assoc])

theorem PushesAll.of_flow (hp : History.PushesAll (h.filter Event.isFlow)) : h.PushesAll := by
  intro newer o older heq
  have hsplit : h.filter Event.isFlow = newer.filter Event.isFlow ++
      .push o :: older.filter Event.isFlow := by
    rw [heq, List.filter_append]
    rfl
  have hpush := hp _ o _ hsplit
  rwa [pushed, flow_pushed, flow_appended] at hpush

/-- The calls behind what was delivered, and that their output was pushed. -/
theorem PushesAll.calls (hp : h.PushesAll) : ∃ cs rest, h.calls = cs ++ rest ∧
    cs.flatMap Call.data = h.delivered ∧ cs.flatMap Call.out <+: h.pushed := by
  induction h with
  | nil => exact ⟨[], [], rfl, rfl, List.prefix_rfl⟩
  | cons e h ih =>
    have hold : PushesAll h := fun newer o older heq =>
      hp (e :: newer) o older (by rw [heq, List.cons_append])
    obtain ⟨cs, rest, h1, h2, h3⟩ := ih hold
    cases e with
    | push o =>
      refine ⟨History.calls h, [], (List.append_nil _).symm, rfl, ?_⟩
      rw [hp [] o h rfl]
      exact List.prefix_rfl
    | work new => exact ⟨cs, rest ++ new, by rw [History.calls, h1, List.append_assoc], h2, h3⟩
    | _ => exact ⟨cs, rest, h1, h2, h3⟩

end History

namespace Core

variable {σ : Type*} {K : Coder σ} {c c' : Core σ}

/-- The buffer of the native write that is under way. -/
def underWay (c : Core σ) : Buffer := (c.ctx.workReq.map WorkData.data).getD []

/-- As long as nothing failed, everything handed over was delivered, or is under way. -/
structure Delivers (c : Core σ) : Prop where
  handed : c.log.nativeErrors = [] → c.log.handed = c.log.delivered ++ c.underWay
  pushes : c.log.PushesAll

/-- A step that neither hands over nor processes nor pushes. -/
theorem Delivers.congr (h : c.Delivers) (hw : c'.ctx.workReq = c.ctx.workReq) (new : History)
    (hlog : c'.log = new ++ c.log)
    (hn : ∀ e ∈ new, e.isFeed = false ∧ (∀ o, e ≠ .push o) ∧ e.nativeErrorOf = none) :
    c'.Delivers := by
  have hsame : ∀ new : History,
      (∀ e ∈ new, e.isFeed = false ∧ (∀ o, e ≠ .push o) ∧ e.nativeErrorOf = none) →
      History.handed (new ++ c.log) = c.log.handed ∧
        History.delivered (new ++ c.log) = c.log.delivered ∧
        History.nativeErrors (new ++ c.log) = c.log.nativeErrors := by
    intro new hn
    induction new with
    | nil => exact ⟨rfl, rfl, rfl⟩
    | cons e new ih =>
      obtain ⟨h1, h2, h3⟩ := ih fun e' he' => hn e' (List.mem_cons_of_mem _ he')
      obtain ⟨g1, g2, g3⟩ := hn e List.mem_cons_self
      have herr : History.nativeErrors (e :: (new ++ c.log)) = c.log.nativeErrors := by
        rw [History.nativeErrors, List.filterMap_cons_none g3]
        exact h3
      cases e with
      | push o => exact absurd rfl (g2 o)
      | nativeWrite | work => cases g1
      | _ => exact ⟨h1, h2, herr⟩
  obtain ⟨h1, h2, h3⟩ := hsame new hn
  refine ⟨?_, ?_⟩
  · rw [hlog, h1, h2, h3, underWay, hw]
    exact h.handed
  · rw [hlog]
    exact h.pushes.append new fun o ho => (hn _ ho).2.1 o rfl

theorem Delivers.close (h : c.Delivers) : c.close.Delivers := by
  have hctx := (VcdCtx.sameWork_close c.ctx).workReq
  unfold Core.close
  dsimp only
  split
  · exact h.congr rfl [.close] rfl (by simp [Event.isFeed, Event.nativeErrorOf])
  · split
    · exact h.congr hctx [.nativeClose, .close] rfl (by simp [Event.isFeed, Event.nativeErrorOf])
    · exact h.congr rfl [.close] rfl (by simp [Event.isFeed, Event.nativeErrorOf])

/-- A call refuses its chunk, keeps it, or hands over everything it has gathered. -/
theorem Delivers.call (h : c.Delivers) (hs : c.Sound) {call : Calling}
    (hc : c.calling = some call) (forceFlush : Bool) :
    (c.runCalling call forceFlush).Delivers := by
  have hat := hs.control.called hc
  have hnone : c.ctx.workReq = none := hat.2.1.workReq
  rw [runCalling_eq hat hs.control.flags]
  split
  · have hd := c.turnedDown call
    exact h.congr (by rw [hd.ctx]) [.transformCb call.callback false] hd.log
      (by simp [Event.isFeed, Event.nativeErrorOf])
  · unfold running
    dsimp only
    split
    · set d := ((c.begin call).take (c.chunkOf call)).submit
        (c.ending && decide (c.length = (c.chunkOf call).length)) call.callback
      obtain ⟨l, b, hlog, hway⟩ : ∃ l b, d.log = .nativeWrite l b :: .take (c.chunkOf call) :: c.log ∧
          d.underWay = b := by
        cases call <;> exact ⟨_, _, rfl, rfl⟩
      have hold : c.underWay = [] := by simp [underWay, hnone]
      refine ⟨fun hne => ?_, ?_⟩
      · rw [hlog] at hne ⊢
        have hh := h.handed hne
        rw [hold, List.append_nil] at hh
        rw [hway]
        exact congrArg (· ++ b) hh
      · rw [hlog]
        exact h.pushes.append [.nativeWrite l b, .take (c.chunkOf call)] (by simp)
    · cases call <;>
        exact h.congr rfl [.take _] rfl (by simp [Event.isFeed, Event.nativeErrorOf])

/-- A native write has succeeded: all that was handed over is processed, and now pushed. -/
theorem Delivers.deliver (h : c.Delivers) (hs : c.Sound) {k : TransformCb}
    (hw : c.ctx.workReq.isSome) (hd : c.ctx.workDone = true) (he : c.ctx.hasError = false) :
    (c.deliver k).Delivers := by
  have hset := hs.coded.settled (by simpa [VcdCtx.hasError] using he)
  obtain ⟨w, hw⟩ := Option.isSome_iff_exists.mp hw
  have hin : c.inFlight = [] := by simp [inFlight, hw, hd]
  have hlog : (c.deliver k).log = .push c.ctx.outputBuffer :: c.log := by cases k <;> rfl
  have hway : (c.deliver k).underWay = [] := by
    cases k <;> simp [underWay, Core.deliver, park, note, VcdCtx.finishWrite]
  refine ⟨fun _ => ?_, ?_⟩
  · rw [hlog, hway, List.append_nil]
    show c.log.handed = c.log.processed
    rw [hset.handed_eq, hin, List.append_nil]
  · intro newer o older heq
    rw [hlog] at heq
    rcases newer with _ | ⟨e, newer⟩
    · obtain ⟨ho, rfl⟩ := List.cons.inj heq
      obtain rfl : c.ctx.outputBuffer = o := by simpa using ho
      exact hset.output
    · exact h.pushes newer o older (List.cons.inj heq).2

theorem Delivers.step (h : c.Delivers) (hs : c.Sound) (hstep : c.Step K c') : c'.Delivers := by
  cases hstep with
  | same | demand | ending | finish | next | workFail => exact h.congr rfl [] rfl (by simp)
  | accept req wants =>
    unfold Core.accept
    dsimp only
    split <;>
      exact h.congr rfl [.accept req.chunk] rfl (by simp [Event.isFeed, Event.nativeErrorOf])
  | close => exact h.close
  | endEvent =>
    have hnote : (c.note .endEvent).Delivers :=
      h.congr rfl [.endEvent] rfl (by simp [Event.isFeed, Event.nativeErrorOf])
    exact hnote.close
  | call forceFlush hc => exact h.call hs hc forceFlush
  | settle k _ hk =>
    obtain ⟨-, -, -, -, hctx, hlog⟩ := (hs.control.waits hk).settle
    exact h.congr (by rw [hctx]) [_] hlog (by simp [Event.isFeed, Event.nativeErrorOf])
  | @work w ctx calls hw hd hp =>
    obtain ⟨ctx', rfl, hdone, -⟩ := hs.worked hw hd hp
    refine ⟨?_, h.pushes.append [.work calls] (by simp)⟩
    intro hne
    have hh := h.handed hne
    rw [underWay] at hh ⊢
    simp only [note, hdone.workReq]
    exact hh
  | report _ hw =>
    refine ⟨fun hne => ?_, h.pushes.append [.error (nativeError c.ctx.err)] (by simp)⟩
    have hlog : c.report.log = .error (nativeError c.ctx.err) :: c.log := rfl
    rw [hlog] at hne
    cases hne
  | deliver _ hw hd he => exact h.deliver hs hw hd he
  | afterCallback =>
    exact h.congr (VcdCtx.sameWork_afterCallback c.ctx).workReq [] rfl (by simp)
  | afterOnerror =>
    exact h.congr (VcdCtx.sameWork_afterOnerror c.ctx).workReq [] rfl (by simp)

end Core

namespace Engine

variable {σ : Type*} {K : Coder σ} {s : Engine σ} {mode : Mode} {m : Number} {h : ℤ} {x : σ}
  {ok : Engine σ → Act → Prop}

theorem delivers_of_reaches (hr : Reaches (step K) ok (init mode m h x) s) : s.core.Delivers := by
  induction hr with
  | refl => exact ⟨fun _ => rfl, fun newer o older heq => by simp [core, init] at heq⟩
  | tail hr _ hs ih =>
    exact ih.step (Invariant.reaches hr).sound ((Invariant.reaches hr).core_step hs)

end Engine

end NodeVcdiff
