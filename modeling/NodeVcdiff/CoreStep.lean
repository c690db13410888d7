import NodeVcdiff.Core
import NodeVcdiff.Clearing

/-!
# Steps of the core

Every step of a stream moves its core by one of the steps below, or not at all.
-/

namespace NodeVcdiff

variable {σ : Type*}

namespace Core

/-- How many callbacks `k` wait in the tick queue or on the stack. -/
def parked (c : Core σ) : TransformCb → ℕ
  | .afterTransform => c.after
  | .done => c.done

/-- The steps of a core. Only the worker and the start of a call run while a call is due. -/
inductive Step (K : Coder σ) (c : Core σ) : Core σ → Prop where
  | same : Step K c c
  | accept (req : WriteReq) (wants : Bool) : c.calling = none → c.ending = false →
      (¬ c.log.Refused → c.writing = none → c.queue = []) → Step K c (c.accept req wants)
  | next {req : WriteReq} {rest : List WriteReq} (wants : Bool) : c.calling = none →
      c.writing = none → c.queue = req :: rest →
      Step K c ({ c with queue := rest }.start req wants)
  | demand : c.calling = none → c.writing.isSome → c.transforming = false →
      Step K c { c with calling := some (.transform false) }
  | close : c.calling = none → Step K c c.close
  | ending : c.calling = none → Step K c { c with ending := true }
  | finish : c.calling = none → c.ending = true → c.length = 0 → c.queue = [] →
      c.writing = none → c.prefinished = false →
      Step K c { c with prefinished := true, calling := some .flush }
  | call {call : Calling} (forceFlush : Bool) : c.calling = some call →
      Step K c (c.runCalling call forceFlush)
  | settle (k : TransformCb) : c.calling = none → 0 < c.parked k →
      Step K c ((c.unpark k).transformCb k true)
  | work {w : WorkData} {ctx : VcdCtx σ} {calls : List Call} :
      c.ctx.workReq = some w → c.ctx.workDone = false →
      c.ctx.processShim K w = .ok (ctx, calls) → Step K c ({ c with ctx }.note (.work calls))
  | workFail {w : WorkData} {a : Assertion} :
      c.ctx.workReq = some w → c.ctx.workDone = false →
      c.ctx.processShim K w = .error a → Step K c (c.fail a)
  | report : c.calling = none → c.ctx.workReq.isSome → c.ctx.workDone = true →
      c.ctx.hasError = true → c.afterShim = 0 → c.sendError = 0 → Step K c c.report
  | deliver {k : TransformCb} : c.calling = none → c.ctx.workReq.isSome →
      c.ctx.workDone = true → c.ctx.hasError = false → c.callback = some k →
      c.afterShim = 0 → c.sendError = 0 → Step K c (c.deliver k)
  | afterCallback : c.calling = none → 0 < c.afterShim →
      Step K c { c with afterShim := c.afterShim - 1, ctx := c.ctx.afterCallback }
  | afterOnerror : c.calling = none → 0 < c.sendError →
      Step K c { c with sendError := c.sendError - 1, ctx := c.ctx.afterOnerror }
  | endEvent : c.calling = none → c.eof = true → Step K c (c.note .endEvent).close

variable {K : Coder σ} {c c' : Core σ}

theorem transformCb_constant (k : TransformCb) (ok : Bool) :
    (c.transformCb k ok).window = c.window ∧ (c.transformCb k ok).mode = c.mode := by
  unfold transformCb
  cases k
  · dsimp only
    split <;> exact ⟨rfl, rfl⟩
  · dsimp only
    split <;> exact ⟨rfl, rfl⟩

theorem transform_constant (chunk : Buffer) (forceFlush : Bool) (k : TransformCb) :
    (c.transform chunk forceFlush k).window = c.window ∧
      (c.transform chunk forceFlush k).mode = c.mode := by
  unfold transform
  split
  · exact transformCb_constant k false
  · unfold processChunk nativeWrite
    dsimp only
    split
    · split <;> exact ⟨rfl, rfl⟩
    · cases k <;> exact ⟨rfl, rfl⟩

/-- The options of a stream stay what they are. -/
theorem Step.constant (h : c.Step K c') : c'.window = c.window ∧ c'.mode = c.mode := by
  cases h with
  | accept req wants =>
    unfold Core.accept
    dsimp only
    split <;> exact ⟨rfl, rfl⟩
  | close =>
    unfold Core.close
    dsimp only
    split
    · exact ⟨rfl, rfl⟩
    · split <;> exact ⟨rfl, rfl⟩
  | endEvent =>
    unfold Core.close
    dsimp only
    split
    · exact ⟨rfl, rfl⟩
    · split <;> exact ⟨rfl, rfl⟩
  | @call call forceFlush =>
    unfold runCalling
    cases call
    · dsimp only
      split
      · exact transform_constant _ _ _
      · exact ⟨rfl, rfl⟩
    · exact transform_constant _ _ _
  | settle k =>
    refine ⟨(transformCb_constant k true).1.trans ?_, (transformCb_constant k true).2.trans ?_⟩ <;>
      cases k <;> rfl
  | @deliver k => cases k <;> exact ⟨rfl, rfl⟩
  | _ => exact ⟨rfl, rfl⟩

theorem transformCb_ending (k : TransformCb) (ok : Bool) :
    (c.transformCb k ok).ending = c.ending := by
  unfold transformCb
  cases k <;> dsimp only <;> split <;> rfl

theorem transform_ending (chunk : Buffer) (forceFlush : Bool) (k : TransformCb) :
    (c.transform chunk forceFlush k).ending = c.ending := by
  unfold transform
  split
  · exact transformCb_ending k false
  · unfold processChunk nativeWrite
    dsimp only
    split
    · split <;> rfl
    · cases k <;> rfl

theorem close_ending : c.close.ending = c.ending := by
  unfold Core.close
  dsimp only
  split
  · rfl
  · split <;> rfl

/-- `end()` is never taken back. -/
theorem Step.ending_mono (h : c.Step K c') (he : c.ending = true) : c'.ending = true := by
  cases h with
  | accept req wants =>
    unfold Core.accept
    dsimp only
    split <;> exact he
  | close => exact close_ending.trans he
  | endEvent => exact close_ending.trans he
  | ending => rfl
  | @call call forceFlush =>
    unfold runCalling
    cases call
    · dsimp only
      split
      · exact (transform_ending _ _ _).trans he
      · exact he
    · exact (transform_ending _ _ _).trans he
  | settle k =>
    refine (transformCb_ending k true).trans ?_
    cases k <;> exact he
  | @deliver k => cases k <;> exact he
  | _ => exact he

end Core

/-- The frames that the core counts. -/
def Frame.isPlace : Frame → Bool
  | .cb _ | .afterShim | .sendError => true
  | _ => false

namespace Engine

variable {K : Coder σ} {s s' : Engine σ}

theorem core_push {f : Frame} (hf : f.isPlace = false) (fs : List Frame) :
    ({ s with stack := f :: fs } : Engine σ).core = ({ s with stack := fs } : Engine σ).core := by
  cases f <;> simp_all [core, Frame.isPlace]

theorem core_pop {f : Frame} {fs : List Frame} (hs : s.stack = f :: fs)
    (hf : f.isPlace = false) : ({ s with stack := fs } : Engine σ).core = s.core := by
  rw [← core_push hf, ← hs]

theorem core_popCb {k : TransformCb} {fs : List Frame} (hs : s.stack = .cb k :: fs) :
    ({ s with stack := fs } : Engine σ).core = s.core.unpark k := by
  cases k <;> simp [core, hs, Core.unpark]

theorem core_popTick {t : Tick} {ts : List Tick} (hs : s.ticks = t :: ts)
    (ht : ∀ k, t ≠ .transformCb k) : ({ s with ticks := ts } : Engine σ).core = s.core := by
  simp [core, hs, ht]

theorem core_popTransformCb {k : TransformCb} {ts : List Tick}
    (hs : s.ticks = .transformCb k :: ts) :
    ({ s with ticks := ts } : Engine σ).core = s.core.unpark k := by
  cases k <;> simp [core, hs, Core.unpark]

theorem core_parked (k : TransformCb) : s.core.parked k =
    s.ticks.count (.transformCb k) + s.stack.count (.cb k) := by
  cases k <;> rfl

theorem parked_of_tick {k : TransformCb} {ts : List Tick} (hs : s.ticks = .transformCb k :: ts) :
    0 < s.core.parked k := by
  rw [core_parked, hs, List.count_cons_self]
  omega

theorem parked_of_frame {k : TransformCb} {fs : List Frame} (hs : s.stack = .cb k :: fs) :
    0 < s.core.parked k := by
  rw [core_parked, hs, List.count_cons_self]
  omega

variable (K) in
/-- A frame that holds no callback moves the core as a call by the user would. -/
theorem core_runFrame (hc : s.calling = none) {f : Frame} (hf : f.isPlace = false)
    (he : ∀ e, f = .emitError e → e.errno = none)
    (hq : ∀ l, f = .drain l → ¬ s.core.log.Refused → s.ws.writing = none →
      s.ws.bufferedRequest = []) : s.core.Step K (s.runFrame f).core := by
  have hcore : s.core.calling = none := hc
  have same : ∀ {t : Engine σ}, t.core = s.core → s.core.Step K t.core := fun h => h ▸ .same
  cases f with
  | cb | afterShim | sendError => simp [Frame.isPlace] at hf
  | user => exact .same
  | ended => exact .same
  | clearBuffer =>
    simp only [runFrame]
    split
    · next hw hq => exact .next s.ts.wants hcore hw hq
    · exact .same
  | afterWrite finished callback =>
    refine same ?_
    simp only [runFrame]
    split <;> simp [core]
  | drain listeners =>
    cases listeners with
    | nil => exact .same
    | cons callback rest =>
      simp only [runFrame, core_flush]
      rw [core_push rfl, core_push rfl]
      split
      · exact .same
      · next h =>
        simp only [Bool.or_eq_true, not_or, Bool.not_eq_true] at h
        exact .accept _ _ hcore h.1.2 (hq _ rfl)
  | writeCb callback =>
    refine same ?_
    simp only [runFrame, core_callUser]
    exact core_push rfl _
  | finishMaybe =>
    simp only [runFrame]
    split
    · next h =>
      simp only [needFinish, Bool.and_eq_true, decide_eq_true_eq, List.isEmpty_iff,
        Option.isNone_iff_eq_none] at h
      obtain ⟨⟨⟨⟨h1, h2⟩, h3⟩, _⟩, h4⟩ := h
      by_cases hp : s.ws.prefinished = true
      · exact same (by simp [core, hp])
      · have hfin : ({ s with
            ws.prefinished := true
            calling := if s.ws.prefinished then s.calling else some .flush
            stack := .user :: s.stack } : Engine σ).core =
            { s.core with prefinished := true, calling := some .flush } := by
          simp [core, hp]
        rw [hfin]
        exact .finish hcore h1 h2 h3 h4 (Bool.eq_false_iff.mpr hp)
    · exact .same
  | emitError e => exact same (core_emit (by simp [Event.isFlow, he e rfl]))
  | endListeners ids =>
    cases ids with
    | nil => exact .same
    | cons id ids =>
      refine same ?_
      simp only [runFrame, core_callUser]
      exact core_push rfl _

variable (K) in
theorem core_userCall (hc : s.calling = none)
    (hq : ¬ s.core.log.Refused → s.ws.writing = none → s.ws.bufferedRequest = []) (a : Act) :
    s.core.Step K (s.userCall a).core := by
  have hcore : s.core.calling = none := hc
  have same : ∀ {t : Engine σ}, t.core = s.core → s.core.Step K t.core := fun h => h ▸ .same
  cases a with
  | write chunk =>
    simp only [userCall, core_write]
    split
    · exact .same
    · next h => exact .accept _ _ hcore (Bool.eq_false_iff.mpr h) hq
  | flush hasCallback =>
    have hflush : ∀ (t : Engine σ) (callback : Option ℕ), t.core = s.core →
        t.ws = s.ws → s.core.Step K (t.flush callback).core := by
      intro t callback ht hw
      rw [core_flush, ht, hw]
      split
      · exact .same
      · next h =>
        simp only [Bool.or_eq_true, not_or, Bool.not_eq_true] at h
        exact .accept _ _ hcore h.1.2 hq
    cases hasCallback
    · exact hflush s none rfl rfl
    · exact hflush _ _ (core_note rfl) rfl
  | endWritable => simp only [userCall, core_endWritable]; exact .ending hcore
  | close hasCallback =>
    cases hasCallback
    · simp only [userCall, core_close]; exact .close hcore
    · simp only [userCall, core_close]; exact .close hcore
  | demand wants =>
    simp only [userCall, core_demand]
    split
    · next h =>
      simp only [Bool.and_eq_true, Bool.not_eq_true'] at h
      exact .demand hcore h.1.2 h.2
    · exact .same
  | _ => exact .same

theorem core_refused : s.core.log.Refused ↔ s.log.Refused := by
  simp [core, History.Refused, Event.isFlow]

/-- Every step of a stream is a step of its core. -/
theorem core_step {a : Act} (hs : s.Shape) (hq : s.log.Refused ∨ s.Clearing) (hcb : s.ctx.workReq.isSome →
    s.vcd.hadError = false ∧ s.req.callback.isSome) (h : step K s a = some s') :
    s.core.Step K s'.core := by
  have hidle : s.ws.bufferProcessing = false ∨ ¬ s.Clearing → ¬ s.core.log.Refused →
      s.ws.writing = none → s.ws.bufferedRequest = [] := by
    intro hb href
    have hcl := hq.resolve_left fun hr => href (core_refused.mpr hr)
    exact hcl.idle (hb.resolve_right (not_not_intro hcl))
  have huser : ∀ hcl : s.Clearing → s.ws.bufferProcessing = false,
      s.ws.bufferProcessing = false ∨ ¬ s.Clearing := fun hcl => by
    by_cases h : s.Clearing
    · exact .inl (hcl h)
    · exact .inr h
  obtain ⟨-, h⟩ := step_moves h
  cases h with
  | work hw hd hp =>
    rw [core_note_flow rfl]
    exact .work hw hd hp
  | workFail hw hd hp => exact .workFail hw hd hp
  | afterShim hc hst hw hd =>
    obtain ⟨hh, hk⟩ := hcb hw
    obtain ⟨k, hk⟩ := Option.isSome_iff_exists.mp hk
    rw [core_afterShim hh hk]
    split
    · next he => exact .report hc hw hd he (by simp [core, hst]) (by simp [core, hst])
    · next he =>
      exact .deliver hc hw hd (Bool.eq_false_iff.mpr he) hk (by simp [core, hst])
        (by simp [core, hst])
  | @tick t ts ht hl =>
    have hc : s.core.calling = none := atLoop_calling hl
    cases t with
    | transformCb k =>
      simp only [runTick]
      rw [core_transformCb _ _ _ (by simp), core_popTransformCb ht]
      exact .settle k hc (parked_of_tick ht)
    | flushCb id =>
      simp only [runTick, core_callUser]
      rw [core_popTick ht (by simp)]
      exact .same
    | writeError callback =>
      simp only [runTick, core_callUser]
      rw [core_popTick ht (by simp)]
      exact .same
    | closeCb id =>
      simp only [runTick]
      rw [core_emit rfl, core_popTick ht (by simp)]
      exact .same
    | emitClose =>
      simp only [runTick]
      rw [core_emit rfl, core_popTick ht (by simp)]
      exact .same
  | emitEnd hl he _ _ =>
    rw [core_emitEnd]
    exact .endEvent (atLoop_calling hl) he
  | calling hc =>
    rw [core_runCalling _ hs.ended]
    exact .call _ hc
  | user a hu =>
    exact core_userCall K (userPoint_calling hu) (hidle (huser fun h => h.of_userPoint hu)) a
  | @frame f fs hc hst =>
    have hcore : s.core.calling = none := hc
    by_cases hf : f.isPlace = true
    · cases f with
      | cb k =>
        simp only [runFrame]
        rw [core_transformCb _ _ _ (by simp), core_popCb hst]
        exact .settle k hcore (parked_of_frame hst)
      | afterShim =>
        have hpop : s.core.afterShim = fs.count .afterShim + 1 := by simp [core, hst]
        have hcore' : (({ s with stack := fs } : Engine σ).runFrame .afterShim).core =
            { s.core with
              afterShim := s.core.afterShim - 1
              ctx := s.core.ctx.afterCallback } := by
          rw [hpop]; simp [core, runFrame, hst]
        rw [hcore']
        exact .afterCallback hcore (by omega)
      | sendError =>
        have hpop : s.core.sendError = fs.count .sendError + 1 := by simp [core, hst]
        have hcore' : (({ s with stack := fs } : Engine σ).runFrame .sendError).core =
            { s.core with
              sendError := s.core.sendError - 1
              ctx := s.core.ctx.afterOnerror } := by
          rw [hpop]; simp [core, runFrame, hst]
        rw [hcore']
        exact .afterOnerror hcore (by omega)
      | _ => simp [Frame.isPlace] at hf
    · have hf : f.isPlace = false := Bool.eq_false_iff.mpr hf
      rw [← core_pop hst hf]
      refine core_runFrame K ?_ hf (fun e he => hs.plain e (by simp [hst, he])) ?_
      · exact hc
      · intro l hl
        rw [core_pop hst hf]
        exact hidle (huser fun h => (h.pop hst (by simp [hl])).1)

end Engine

end NodeVcdiff
