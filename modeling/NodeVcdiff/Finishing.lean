import NodeVcdiff.Progress

/-!
# What `end()` leads to

After `end()` either a chunk is still on its way, or a call in progress is about to look
whether the stream can finish, or `_flush` was started. A stream that comes to rest behind
`end()` has therefore emitted 'end', unless a coder step failed or a chunk was refused.
-/

namespace NodeVcdiff

open Transition (Reaches Inevitable)

variable {σ : Type*} {K : Coder σ}

namespace History

/-- A failed call was made by some execution of `Process`. -/
theorem exists_failing {h : History} (hf : h.hasFailed = true) : ∃ newer calls older,
    h = newer ++ .work calls :: older ∧ ∃ q ∈ calls, q.failed = true := by
  induction h with
  | nil => cases hf
  | cons e h ih =>
    by_cases hh : History.hasFailed h = true
    · obtain ⟨newer, calls, older, rfl, hq⟩ := ih hh
      exact ⟨e :: newer, calls, older, rfl, hq⟩
    · cases e with
      | work cs =>
        refine ⟨[], cs, h, rfl, ?_⟩
        have hnone : (History.calls h).any Call.failed = false := Bool.eq_false_iff.mpr hh
        have hsome : (History.calls h ++ cs).any Call.failed = true := hf
        rw [List.any_append, hnone, Bool.false_or] at hsome
        simpa using hsome
      | _ => exact absurd hf hh

end History

namespace Core

variable {c c' : Core σ}

/-- Once `_flush` was called, its callback is on its way or was called. -/
def Pursued (c : Core σ) : Prop :=
  c.prefinished = true → c.eof = true ∨ c.log.Refused ∨ c.calling = some .flush ∨ 0 < c.done ∨
    c.ctx.workReq.isSome ∨ c.hadError = true

theorem Pursued.of_unfinished (h : c'.prefinished = false) : c'.Pursued := fun hp => by
  rw [h] at hp; cases hp

theorem Pursued.congr (h : c.Pursued) (h1 : c'.prefinished = c.prefinished)
    (h2 : c.eof = true → c'.eof = true) (h3 : c.log.Refused → c'.log.Refused)
    (h4 : c'.calling = c.calling) (h5 : c'.done = c.done)
    (h6 : c.ctx.workReq.isSome → c'.ctx.workReq.isSome ∨ c'.hadError = true)
    (h7 : c.hadError = true → c'.hadError = true) : c'.Pursued := by
  intro hp
  rcases h (h1 ▸ hp) with h | h | h | h | h | h
  · exact .inl (h2 h)
  · exact .inr (.inl (h3 h))
  · exact .inr (.inr (.inl (h4 ▸ h)))
  · exact .inr (.inr (.inr (.inl (h5 ▸ h))))
  · exact .inr (.inr (.inr (.inr (h6 h))))
  · exact .inr (.inr (.inr (.inr (.inr (h7 h)))))

theorem Flags.unfinished (hf : c.Flags) (hw : c.writing.isSome) : c.prefinished = false := by
  by_contra hne
  have := (hf.finished (by simpa using hne)).2.1
  simp [this] at hw

theorem Pursued.close (h : c.Pursued) : c.close.Pursued := by
  have hctx := (VcdCtx.sameWork_close c.ctx).workReq
  unfold Core.close
  dsimp only
  split
  · exact h.congr rfl id (fun hr => by simpa [note] using hr) rfl rfl .inl id
  · split
    · exact h.congr rfl id (fun hr => by simpa [note] using hr) rfl rfl
        (fun hw => .inl (by simpa [note, hctx] using hw)) id
    · exact h.congr rfl id (fun hr => by simpa [note] using hr) rfl rfl .inl id

theorem Pursued.call (hs : c.Sound) {call : Calling} (hc : c.calling = some call)
    (forceFlush : Bool) : (c.runCalling call forceFlush).Pursued := by
  have hat := hs.control.called hc
  rw [runCalling_eq hat hs.control.flags]
  cases call with
  | transform sync =>
    refine .of_unfinished ?_
    have hp := hs.control.flags.unfinished hat.2.2.2.2.2
    split
    · cases hw : c.writing <;>
        simpa [transformCb, begin, note, hw, finishWriting, Calling.callback] using hp
    · unfold running
      dsimp only
      split <;> exact hp
  | flush =>
    intro _
    split
    · exact .inr (.inl ⟨.done, by simp [transformCb, begin, note, Calling.callback]⟩)
    · unfold running
      dsimp only
      split
      · exact .inr (.inr (.inr (.inr (.inl rfl))))
      · exact .inr (.inr (.inr (.inl (Nat.succ_pos _))))

theorem Pursued.step (h : c.Pursued) (hs : c.Sound) (hstep : c.Step K c') : c'.Pursued := by
  have hf := hs.control.flags
  cases hstep with
  | same => exact h
  | accept req wants _ he =>
    refine .of_unfinished ?_
    have hp : c.prefinished = false := by
      by_contra hne
      have := (hf.finished (by simpa using hne)).1
      simp [he] at this
    unfold Core.accept
    dsimp only
    split <;> exact hp
  | next wants _ _ hq =>
    refine .of_unfinished (?_ : c.prefinished = false)
    by_contra hne
    have := (hf.finished (by simpa using hne)).2.2.1
    simp [hq] at this
  | demand _ hw => exact .of_unfinished (hf.unfinished hw)
  | close => exact h.close
  | ending => exact h
  | finish => exact fun _ => .inr (.inr (.inl rfl))
  | call forceFlush hc => exact .call hs hc forceFlush
  | settle k _ hk =>
    have hat := hs.control.waits hk
    cases k with
    | afterTransform =>
      obtain ⟨req, hreq⟩ := Option.isSome_iff_exists.mp hat.2.2.2.2.2.2.2
      rw [settle_afterTransform hreq]
      exact .of_unfinished (hf.unfinished hat.2.2.2.2.2.2.2)
    | done => rw [settle_done]; exact fun _ => .inl rfl
  | @work w ctx calls hw hd hp =>
    obtain ⟨ctx', rfl, hdone, -⟩ := hs.worked hw hd hp
    exact h.congr rfl id (fun hr => by simpa [note] using hr) rfl rfl
      (fun hws => .inl ((congrArg Option.isSome hdone.workReq).trans hws)) id
  | workFail => exact h.congr rfl id id rfl rfl .inl id
  | report => exact fun _ => .inr (.inr (.inr (.inr (.inr rfl))))
  | @deliver k _ hw _ _ hk =>
    obtain ⟨k', hat⟩ := hs.control.native hw
    obtain rfl : k = k' := Option.some.inj (hk.symm.trans hat.2.2.2.2.1)
    cases k with
    | afterTransform => exact .of_unfinished (hf.unfinished hat.2.2.2.2.2.2.2.2)
    | done => exact fun _ => .inr (.inr (.inr (.inl (Nat.succ_pos _))))
  | afterCallback =>
    have hx := VcdCtx.sameWork_afterCallback c.ctx
    exact h.congr rfl id id rfl rfl (fun hw => .inl (by simpa [hx.workReq] using hw)) id
  | afterOnerror =>
    have hx := VcdCtx.sameWork_afterOnerror c.ctx
    exact h.congr rfl id id rfl rfl (fun hw => .inl (by simpa [hx.workReq] using hw)) id
  | endEvent =>
    exact Pursued.close (h.congr rfl id (fun hr => by simpa [note] using hr) rfl rfl .inl id)

end Core

/-- Running the frame leads to a look whether the stream can finish. -/
def Frame.leadsOn : Frame → Bool
  | .finishMaybe | .writeCb _ | .afterWrite _ _ => true
  | _ => false

namespace Engine

variable {s s' : Engine σ} {a : Act}

/-- A stream that is ending is on its way to its end. -/
def Heading (s : Engine σ) : Prop :=
  s.ws.ending = true → s.ws.prefinished = true ∨ s.ws.writing.isSome ∨
    s.ws.bufferedRequest ≠ [] ∨ ∃ f ∈ s.stack, f.leadsOn = true

/-- A step that keeps the queue and the frames that lead on. -/
theorem Heading.congr (h : s.Heading) (h1 : s'.ws.ending = s.ws.ending)
    (h2 : s'.ws.prefinished = s.ws.prefinished) (h3 : s'.ws.writing = s.ws.writing)
    (h4 : s'.ws.bufferedRequest = s.ws.bufferedRequest)
    (hs : ∀ f ∈ s.stack, f.leadsOn = true → f ∈ s'.stack) : s'.Heading := by
  intro he
  rw [h1] at he
  rw [h2, h3, h4]
  refine (h he).imp_right (Or.imp_right (Or.imp_right ?_))
  rintro ⟨f, hf, hl⟩
  exact ⟨f, hs f hf hl, hl⟩

theorem Heading.of_ws {t : Engine σ} (h : s.Heading) (hw : t.ws = s.ws)
    (hs : ∀ f ∈ s.stack, f.leadsOn = true → f ∈ t.stack) : t.Heading :=
  h.congr (by rw [hw]) (by rw [hw]) (by rw [hw]) (by rw [hw]) hs

theorem Heading.of_stack {t : Engine σ} (h : s.Heading) (hw : t.ws = s.ws)
    (hs : ∃ fs, t.stack = fs ++ s.stack) : t.Heading := by
  obtain ⟨fs, hs⟩ := hs
  exact h.of_ws hw fun f hf _ => by rw [hs]; exact List.mem_append_right _ hf

/-- A frame on the stack leads on. -/
theorem Heading.of_frame {f : Frame} (hf : f ∈ s'.stack) (hl : f.leadsOn = true) : s'.Heading :=
  fun _ => .inr (.inr (.inr ⟨f, hf, hl⟩))

theorem Heading.pop (h : s.Heading) {f : Frame} {fs : List Frame} (hs : s.stack = f :: fs)
    (hf : f.leadsOn = false) : ({ s with stack := fs } : Engine σ).Heading := by
  refine h.of_ws rfl fun g hg hl => ?_
  rw [hs] at hg
  rcases List.mem_cons.mp hg with rfl | hg
  · rw [hf] at hl; cases hl
  · exact hg

theorem Heading.emit (h : s.Heading) (e : Event) : (s.emit e).Heading :=
  h.of_stack rfl ⟨[.user], rfl⟩

theorem Heading.callUser (h : s.Heading) (callback : Option ℕ) (ok : Bool) :
    (s.callUser callback ok).Heading := by
  cases callback <;> exact h.of_stack rfl ⟨[.user], rfl⟩

theorem Heading.close (h : s.Heading) (callback : Option ℕ) : (s.close callback).Heading := by
  refine h.of_stack ?_ ⟨[], ?_⟩ <;>
    cases callback <;> cases hc : s.vcd.closed <;> cases hh : s.vcd.handle <;>
      simp [Engine.close, hc, hh, note, nextTick]

theorem Heading.write (h : s.Heading) (req : WriteReq) : (s.write req).Heading := by
  unfold Engine.write
  split
  · exact h.of_stack rfl ⟨[.user], rfl⟩
  · next hn => exact fun he => absurd ((grows_writeOrBuffer req).ending.symm.trans he) hn

theorem Heading.flush (h : s.Heading) (callback : Option ℕ) : (s.flush callback).Heading := by
  unfold Engine.flush
  split
  · split
    · exact h.of_stack rfl ⟨[], rfl⟩
    · exact h
  · split
    · split <;> exact h.of_stack rfl ⟨[], rfl⟩
    · split
      · exact h.of_stack rfl ⟨[], rfl⟩
      · exact Heading.write (s := { s with vcd.forceFlush := true }) h _

theorem Heading.transformCb (h : s.Heading) (k : TransformCb) :
    (s.transformCb k none false).Heading := by
  cases k with
  | done => exact h.of_stack rfl ⟨[.user], rfl⟩
  | afterTransform =>
    simp only [Engine.transformCb, onwrite]
    split
    · exact h.of_stack rfl ⟨[], rfl⟩
    · split
      · exact .of_frame (List.mem_cons_of_mem _ List.mem_cons_self) rfl
      · exact .of_frame List.mem_cons_self rfl

/-- The look whether the stream can finish: if it cannot, a chunk is still there. -/
theorem Heading.finishMaybe (hw : s.core.Held) (hb : s.ws.bufferProcessing = false) :
    (s.runFrame .finishMaybe).Heading := by
  simp only [runFrame]
  split
  · exact fun _ => .inl rfl
  · next hn =>
    intro he
    by_contra hno
    simp only [not_or, Bool.not_eq_true, Option.isSome_eq_false_iff, Option.isNone_iff_eq_none,
      not_not] at hno
    refine hn ?_
    have hlen : s.ws.length = 0 := by
      rw [show s.ws.length = s.core.length from rfl, hw.length_eq]
      simp [Core.queued, show s.core.writing = none from hno.2.1,
        show s.core.queue = [] from hno.2.2.1]
    simp [needFinish, he, hlen, hno.2.1, hno.2.2.1, hb]

theorem Heading.runFrame (h : s.Heading) {f : Frame} {fs : List Frame} (hst : s.stack = f :: fs)
    (hs : s.core.Held) (hcl : s.Clearing) :
    (({ s with stack := fs } : Engine σ).runFrame f).Heading := by
  cases f with
  | user => exact h.pop hst rfl
  | cb k => exact (h.pop hst rfl).transformCb k
  | clearBuffer =>
    simp only [Engine.runFrame]
    split
    · exact fun _ => .inr (.inl rfl)
    · exact (h.pop hst rfl).congr rfl rfl rfl rfl fun _ hf _ => hf
  | afterWrite finished callback =>
    simp only [Engine.runFrame]
    split
    · exact .of_frame (f := .writeCb callback) (by simp) rfl
    · exact .of_frame List.mem_cons_self rfl
  | drain listeners =>
    cases listeners with
    | nil => exact h.pop hst rfl
    | cons callback rest =>
      exact ((h.pop hst rfl).of_stack (t := { s with stack := .user :: .drain rest :: fs }) rfl
        ⟨[.user, .drain rest], rfl⟩).flush callback
  | writeCb callback =>
    refine Heading.callUser ?_ callback true
    exact .of_frame (f := .finishMaybe) List.mem_cons_self rfl
  | finishMaybe =>
    obtain ⟨hb, -⟩ := hcl.pop hst (by simp)
    refine Heading.finishMaybe (s := { s with stack := fs }) ?_ hb
    rw [core_pop hst rfl]
    exact hs
  | ended => exact (h.pop hst rfl).congr rfl rfl rfl rfl fun _ hf _ => hf
  | emitError e => exact (h.pop hst rfl).emit _
  | endListeners ids =>
    cases ids with
    | nil => exact h.pop hst rfl
    | cons id ids =>
      exact ((h.pop hst rfl).of_stack (t := { s with stack := .endListeners ids :: fs }) rfl
        ⟨[.endListeners ids], rfl⟩).callUser (some id) true
  | afterShim => exact (h.pop hst rfl).of_stack rfl ⟨[], rfl⟩
  | sendError => exact (h.pop hst rfl).of_stack rfl ⟨[], rfl⟩

theorem Heading.userCall (h : s.Heading) (a : Act) : (s.userCall a).Heading := by
  cases a with
  | write chunk => exact h.write _
  | flush hasCallback =>
    cases hasCallback
    · exact h.flush none
    · exact Heading.flush (h.of_stack (t := { s with nextFlush := s.nextFlush + 1 }.note
        (.flush s.nextFlush)) rfl ⟨[], rfl⟩) _
  | endWritable =>
    simp only [Engine.userCall, endWritable]
    split
    · exact h
    · exact .of_frame List.mem_cons_self rfl
  | close hasCallback =>
    cases hasCallback
    · exact h.close none
    · exact Heading.close (h.of_stack (t := { s with nextClose := s.nextClose + 1 }) rfl
        ⟨[], rfl⟩) _
  | demand wants => exact h.of_stack rfl ⟨[], rfl⟩
  | read => exact h.of_stack rfl ⟨[], rfl⟩
  | work | afterShim | tick | emitEnd | run => exact h

theorem Heading.afterShim (h : s.Heading) : s.afterShim.Heading := by
  unfold Engine.afterShim
  dsimp only
  split
  · exact (h.of_stack (t := { s with
      ctx.workReq := none, stack := .sendError :: s.stack
      vcd.handle := false, vcd.hadError := true }) rfl ⟨[.sendError], rfl⟩).emit _
  · split
    · next k hk =>
      unfold Engine.callback
      split
      · exact h.of_stack rfl ⟨[.afterShim], rfl⟩
      · exact h.of_stack rfl ⟨[.user, .cb k, .afterShim], rfl⟩
    · exact h.of_stack rfl ⟨[.afterShim], rfl⟩

theorem Heading.step (hi : s.Invariant) (h : s.log.Refused ∨ s.Heading)
    (hs : step K s a = some s') : s'.log.Refused ∨ s'.Heading := by
  rcases h with ⟨k, hk⟩ | h
  · exact .inl ⟨k, (step_log hi.shape hs).mem hk⟩
  rcases hi.clearing with ⟨k, hk⟩ | hcl
  · exact .inl ⟨k, (step_log hi.shape hs).mem hk⟩
  obtain ⟨-, hm⟩ := step_moves hs
  cases hm with
  | work => exact .inr (h.of_stack rfl ⟨[], rfl⟩)
  | workFail => exact .inr (h.of_stack rfl ⟨[], rfl⟩)
  | afterShim => exact .inr h.afterShim
  | emitEnd =>
    refine .inr (Heading.close ?_ none)
    exact h.of_stack rfl ⟨[.user, .endListeners s.endListeners], rfl⟩
  | @calling c hc =>
    cases hclosed : s.vcd.closed with
    | true =>
      exact (runCalling_closed c hclosed).imp_right fun he =>
        h.of_stack (by rw [he]) ⟨[], by rw [he]; rfl⟩
    | false =>
      have hside := runCalling_aside c hclosed
      exact .inr (h.of_stack hside.ws ⟨[], hside.stack⟩)
  | frame hc hst => exact .inr (h.runFrame hst hi.sound.held hcl)
  | @tick t ts ht hl =>
    right
    have h' : ({ s with ticks := ts } : Engine σ).Heading := h.of_stack rfl ⟨[], rfl⟩
    cases t with
    | transformCb k => exact h'.transformCb k
    | flushCb id => exact h'.callUser (some id) true
    | writeError callback => exact h'.callUser callback false
    | closeCb id => exact h'.emit _
    | emitClose => exact h'.emit _
  | user a => exact .inr (h.userCall a)

/-- What `end()` was called for is on its way, in every state of every run. -/
theorem on_its_way {mode : Mode} {m : Script.Number} {h : ℤ} {x : σ} {ok : Engine σ → Act → Prop}
    (hr : Reaches (step K) ok (init mode m h x) s) :
    s.core.Pursued ∧ (s.log.Refused ∨ s.Heading) := by
  induction hr with
  | refl => exact ⟨fun hp => absurd hp (by simp [core, init]), .inr fun he => absurd he (by simp [init])⟩
  | tail hr _ hs ih =>
    have hi := Invariant.reaches hr
    exact ⟨ih.1.step hi.sound (hi.core_step hs), Heading.step hi ih.2 hs⟩

/-- A stream at rest behind `end()` has finished, or a coder step has failed and its error
was reported. -/
theorem Quiescent.outcome (hq : s.Quiescent) (hi : s.Invariant) (hp : s.core.Pursued)
    (hh : s.Heading) (hr : ¬ s.log.Refused) (he : s.ws.ending = true) :
    s.log.hasFailed = false ∧ .endEvent ∈ s.log ∨
    s.log.hasFailed = true ∧ s.log.nativeErrors = [nativeError s.ctx.err] := by
  have hfail : s.log.hasFailed = false ↔ s.ctx.err = .ok := by
    rw [← History.flow_hasFailed]
    exact hi.sound.coded.hasFailed
  rcases hq.turn hi with ⟨hrest, hw⟩ | ⟨k, hlost⟩
  · left
    refine ⟨hfail.mpr hrest.2.2.2.2, hi.shape.emitted.mp (hq.ended ?_)⟩
    have hcl := hi.clearing.resolve_left hr
    have hb : s.ws.bufferProcessing = false := hcl.of_loop (by simp [atLoop, hq.calling, hq.stack])
    have hpre : s.ws.prefinished = true := by
      rcases hh he with h | h | h | ⟨f, hf, -⟩
      · exact h
      · simp [hw] at h
      · exact absurd (hcl.idle hb hw) h
      · simp [hq.stack] at hf
    have hdone : s.core.done = 0 := hrest.2.1.done
    rcases hp hpre with h | h | h | h | h | h
    · exact h
    · exact absurd (core_refused.mp h) hr
    · rw [hrest.1] at h; cases h
    · omega
    · rw [hrest.2.1.workReq] at h; cases h
    · rw [hrest.2.2.2.1] at h; cases h
  · right
    have herr : s.ctx.err ≠ .ok := hlost.2.2.2.1
    have hfailed : s.log.hasFailed = true := by
      by_contra hne
      exact herr (hfail.mp (Bool.eq_false_iff.mpr hne))
    refine ⟨hfailed, ?_⟩
    obtain ⟨newer, calls, older, heq, hcalls⟩ := History.exists_failing
      (History.flow_hasFailed.trans hfailed : History.hasFailed s.core.log = true)
    have hafter := hi.sound.coded.failure newer calls older heq hcalls
    rw [← History.flow_nativeErrors]
    exact hafter.errors.trans (by rw [hlost.2.1.workReq]; rfl)

end Engine

end NodeVcdiff
