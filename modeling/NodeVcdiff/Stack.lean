import NodeVcdiff.Engine

/-!
# The steps of a stream and the stack of calls in progress

No method of the stream pops a frame: each leaves the stack as it is or puts frames on top
of it, and pushes bytes to the readable side only at its end. The two native calls that wait for the tick queue are always at the bottom, and
`end()` is in progress exactly while the stream is ending and not ended.
-/

namespace NodeVcdiff

namespace Engine

variable {σ : Type*} {K : Coder σ} {s s' s'' : Engine σ} {a : Act}

/-- The user calls a method, or the consumer of the readable side acts. -/
def Act.byUser : Act → Bool
  | .write _ | .flush _ | .endWritable | .close _ | .demand _ | .read => true
  | _ => false

/-- What a step does, case by case. -/
inductive Moves (K : Coder σ) (s : Engine σ) : Act → Engine σ → Prop where
  | work {w : WorkData} {ctx : VcdCtx σ} {calls : List Call} : s.ctx.workReq = some w →
      s.ctx.workDone = false → s.ctx.processShim K w = .ok (ctx, calls) →
      Moves K s .work ({ s with ctx }.note (.work calls))
  | workFail {w : WorkData} {e : Assertion} : s.ctx.workReq = some w →
      s.ctx.workDone = false → s.ctx.processShim K w = .error e → Moves K s .work (s.fail e)
  | afterShim : s.calling = none → s.stack = [] → s.ctx.workReq.isSome →
      s.ctx.workDone = true → Moves K s .afterShim s.afterShim
  | tick {t : Tick} {ts : List Tick} : s.ticks = t :: ts → s.atLoop = true →
      Moves K s .tick ({ s with ticks := ts }.runTick t)
  | emitEnd : s.atLoop = true → s.rs.ended = true → s.rs.buffer = [] →
      s.rs.endEmitted = false → Moves K s .emitEnd s.emitEnd
  | calling {c : Calling} : s.calling = some c → Moves K s .run (s.runCalling c)
  | frame {f : Frame} {fs : List Frame} : s.calling = none → s.stack = f :: fs →
      Moves K s .run ({ s with stack := fs }.runFrame f)
  | user (a : Act) : s.userPoint = true → a.byUser = true → Moves K s a (s.userCall a)

theorem step_moves (h : step K s a = some s') : s.fault = none ∧ Moves K s a s' := by
  unfold step at h
  split at h
  · cases h
  next hf =>
  refine ⟨by simpa using hf, ?_⟩
  split at h
  · split at h
    · next w hw =>
      split at h
      · cases h
      next hd =>
      split at h
      · next e he => cases h; exact .workFail hw (by simpa using hd) he
      · next ctx calls he => cases h; exact .work hw (by simpa using hd) he
    · cases h
  · split at h
    · next hc =>
      simp only [Bool.and_eq_true, Option.isNone_iff_eq_none, List.isEmpty_iff] at hc
      cases h
      exact .afterShim hc.1.1.1 hc.1.1.2 hc.1.2 hc.2
    · cases h
  · split at h
    · next t ts ht =>
      split at h
      · next hl => cases h; exact .tick ht hl
      · cases h
    · cases h
  · split at h
    · next hc =>
      simp only [Bool.and_eq_true, List.isEmpty_iff, Bool.not_eq_true'] at hc
      cases h
      exact .emitEnd hc.1.1.1 hc.1.1.2 hc.1.2 hc.2
    · cases h
  · split at h
    · next c hc => cases h; exact .calling hc
    · next f fs hc hs => cases h; exact .frame hc hs
    · cases h
  · split at h
    · next hu =>
      cases h
      refine .user _ hu ?_
      cases a <;> first | rfl | simp_all
    · cases h

theorem atLoop_calling (h : s.atLoop = true) : s.calling = none := by
  simp only [atLoop, Bool.and_eq_true, Option.isNone_iff_eq_none] at h
  exact h.1

theorem userPoint_calling (h : s.userPoint = true) : s.calling = none := by
  simp only [userPoint, Bool.or_eq_true, Bool.and_eq_true, Option.isNone_iff_eq_none] at h
  exact h.elim atLoop_calling And.left

end Engine

/-- A frame that the methods of the stream push. -/
def Frame.Nested (f : Frame) : Prop :=
  f ≠ .afterShim ∧ f ≠ .sendError ∧ f ≠ .ended ∧ ∀ e, f = .emitError e → e.errno = none

namespace Engine

variable {σ : Type*} {K : Coder σ} {s s' s'' : Engine σ} {a : Act}

/-- 'end' was emitted exactly if that is noted. -/
def Emitted (s : Engine σ) : Prop := s.rs.endEmitted = true ↔ .endEvent ∈ s.log

/-- The step from `s` to `s'` pushed frames, noted events, appended output and did not
touch `end()`. -/
structure Grows (s s' : Engine σ) : Prop where
  ended : s'.ws.ended = s.ws.ended
  ending : s'.ws.ending = s.ws.ending
  stack : ∃ fs, s'.stack = fs ++ s.stack ∧ ∀ f ∈ fs, f.Nested
  log : s.log <:+ s'.log
  emitted : s.Emitted → s'.Emitted
  output : ∃ o, s'.rs.buffer.flatten = s.rs.buffer.flatten ++ o ∧
    s'.log.pushed = s.log.pushed ++ o

theorem Grows.refl : Grows s s :=
  ⟨rfl, rfl, ⟨[], rfl, by simp⟩, List.suffix_refl _, id, [], by simp⟩

theorem Grows.after (h' : Grows s' s'') (h : Grows s s') : Grows s s'' := by
  obtain ⟨fs, hfs, hn⟩ := h.stack
  obtain ⟨gs, hgs, hm⟩ := h'.stack
  obtain ⟨o, ho, hpo⟩ := h.output
  obtain ⟨p, hp, hpp⟩ := h'.output
  refine ⟨h'.ended.trans h.ended, h'.ending.trans h.ending, ⟨gs ++ fs, ?_, ?_⟩,
    h.log.trans h'.log, fun he => h'.emitted (h.emitted he), o ++ p, ?_⟩
  · rw [hgs, hfs, List.append_assoc]
  · simp only [List.mem_append]
    rintro f (hf | hf)
    · exact hm f hf
    · exact hn f hf
  · rw [hp, hpp, ho, hpo, List.append_assoc, List.append_assoc]
    exact ⟨rfl, rfl⟩

theorem Grows.of_eq (hd : s'.ws.ended = s.ws.ended) (he : s'.ws.ending = s.ws.ending)
    (hs : s'.stack = s.stack) (hl : s'.log = s.log) (hr : s'.rs.endEmitted = s.rs.endEmitted)
    (hb : s'.rs.buffer = s.rs.buffer) : Grows s s' :=
  ⟨hd, he, ⟨[], hs, by simp⟩, hl ▸ List.suffix_rfl,
    fun h => by rw [Emitted, hr, hl]; exact h, [], by simp [hb, hl]⟩

theorem Grows.of_cons {f : Frame} (hd : s'.ws.ended = s.ws.ended)
    (he : s'.ws.ending = s.ws.ending) (hs : s'.stack = f :: s.stack) (hf : f.Nested)
    (hl : s'.log = s.log) (hr : s'.rs.endEmitted = s.rs.endEmitted)
    (hb : s'.rs.buffer = s.rs.buffer) : Grows s s' :=
  ⟨hd, he, ⟨[f], hs, by simpa using hf⟩, hl ▸ List.suffix_rfl,
    fun h => by rw [Emitted, hr, hl]; exact h, [], by simp [hb, hl]⟩

theorem nested_user : Frame.Nested .user := by simp [Frame.Nested]

/-- Apart from `push` no event pushes bytes. -/
theorem pushed_cons {e : Event} {h : History} (he : ∀ o, e ≠ .push o) :
    History.pushed (e :: h) = h.pushed := by
  cases e with
  | push o => exact absurd rfl (he o)
  | _ => rfl

theorem Emitted.of_note {e : Event} (h : s.Emitted) (he : e ≠ .endEvent)
    (hl : s'.log = e :: s.log) (hr : s'.rs.endEmitted = s.rs.endEmitted) : s'.Emitted := by
  rw [Emitted, hr, hl, List.mem_cons]
  exact h.trans ⟨.inr, fun hm => hm.resolve_left (Ne.symm he)⟩

theorem Grows.of_note {e : Event} (hp : (∀ o, e ≠ .push o) ∧ e ≠ .endEvent) (hd : s'.ws.ended = s.ws.ended)
    (he : s'.ws.ending = s.ws.ending) (hs : s'.stack = s.stack) (hl : s'.log = e :: s.log)
    (hr : s'.rs.endEmitted = s.rs.endEmitted) (hb : s'.rs.buffer = s.rs.buffer) :
    Grows s s' :=
  ⟨hd, he, ⟨[], hs, by simp⟩, hl ▸ List.suffix_cons _ _, fun h => h.of_note hp.2 hl hr, [],
    by simp [hb], by rw [hl, pushed_cons hp.1, List.append_nil]⟩

theorem grows_note (e : Event) (he : (∀ o, e ≠ .push o) ∧ e ≠ .endEvent) : Grows s (s.note e) :=
  .of_note he rfl rfl rfl rfl rfl rfl

theorem grows_nextTick (t : Tick) : Grows s (s.nextTick t) :=
  .of_eq rfl rfl rfl rfl rfl rfl

theorem grows_emit (e : Event) (he : (∀ o, e ≠ .push o) ∧ e ≠ .endEvent) :
    Grows s (s.emit e) :=
  ⟨rfl, rfl, ⟨[.user], rfl, by simp [Frame.Nested]⟩, List.suffix_cons _ _,
    fun h => h.of_note he.2 rfl rfl, [], (List.append_nil _).symm,
    (pushed_cons he.1).trans (List.append_nil _).symm⟩

theorem grows_callUser (callback : Option ℕ) (ok : Bool) : Grows s (s.callUser callback ok) := by
  cases callback with
  | some id => exact grows_emit _ (by simp)
  | none => exact .of_cons rfl rfl rfl nested_user rfl rfl rfl

theorem grows_close (callback : Option ℕ) : Grows s (s.close callback) := by
  cases callback <;> cases hc : s.vcd.closed <;> cases hh : s.vcd.handle <;>
    simp only [close, note, nextTick, hc, hh, if_true, Bool.false_eq_true, if_false] <;>
    exact ⟨rfl, rfl, ⟨[], rfl, by simp⟩, by simp [List.suffix_cons_iff],
      fun h => by simpa [Emitted] using h, [], (List.append_nil _).symm,
      (List.append_nil _).symm⟩

theorem grows_writeOrBuffer (req : WriteReq) : Grows s (s.writeOrBuffer req) := by
  cases hw : s.ws.writing.isSome <;>
    simp only [writeOrBuffer, doWrite, hw, if_true, Bool.false_eq_true, if_false] <;>
    exact .of_note (e := .accept req.chunk) (by simp) rfl rfl rfl rfl rfl rfl

theorem grows_write (req : WriteReq) : Grows s (s.write req) := by
  unfold write
  split
  · exact (grows_nextTick _).after (grows_emit _ (by simp))
  · exact grows_writeOrBuffer req

theorem grows_flush (callback : Option ℕ) : Grows s (s.flush callback) := by
  unfold flush
  split
  · split
    · exact grows_nextTick _
    · exact .refl
  · split
    · split <;> exact .of_eq rfl rfl rfl rfl rfl rfl
    · split
      · exact .of_eq rfl rfl rfl rfl rfl rfl
      · exact (grows_write _).after (.of_eq rfl rfl rfl rfl rfl rfl)

theorem grows_onwrite (er : Option ErrorObject) (sync : Bool)
    (he : ∀ e, er = some e → e.errno = none) : Grows s (s.onwrite er sync) := by
  unfold onwrite
  split
  · exact .refl
  · dsimp only
    split
    · next e =>
      split
      · exact ((grows_emit _ (by simp)).after (grows_nextTick _)).after (.of_eq rfl rfl rfl rfl rfl rfl)
      · refine (grows_callUser _ _).after (.of_cons rfl rfl rfl ?_ rfl rfl rfl)
        simpa [Frame.Nested] using he e rfl
    · split
      · exact ⟨rfl, rfl, ⟨[.clearBuffer, .afterWrite _ _], rfl, by simp [Frame.Nested]⟩,
          List.suffix_rfl, id, [], by simp⟩
      · exact .of_cons rfl rfl rfl (by simp [Frame.Nested]) rfl rfl rfl

theorem grows_transformCb (k : TransformCb) (er : Option ErrorObject) (sync : Bool)
    (he : ∀ e, er = some e → e.errno = none) : Grows s (s.transformCb k er sync) := by
  unfold transformCb
  split
  · exact (grows_onwrite _ _ he).after
      (.of_note (e := .transformCb .afterTransform er.isNone) (by simp) rfl rfl rfl rfl rfl rfl)
  · exact (grows_emit _ (by simp)).after (grows_note _ (by simp))
  · exact (grows_emit _ (by simp)).after (.of_note (e := .transformCb .done true) (by simp) rfl rfl rfl rfl rfl rfl)

theorem grows_nativeWrite (isLast : Bool) (chunk : Buffer) (k : TransformCb) :
    Grows s (s.nativeWrite isLast chunk k) := by
  unfold nativeWrite
  split
  · exact .of_eq rfl rfl rfl rfl rfl rfl
  · exact .of_note (e := .nativeWrite isLast chunk) (by simp) rfl rfl rfl rfl rfl rfl

theorem grows_processChunk (chunk : Buffer) (isLast forceFlush : Bool) (k : TransformCb) :
    Grows s (s.processChunk chunk isLast forceFlush k) := by
  have htake : (∀ o, Event.take chunk ≠ .push o) ∧ Event.take chunk ≠ .endEvent := by simp
  unfold processChunk
  dsimp only
  split
  · split
    · exact .of_note htake rfl rfl rfl rfl rfl rfl
    · exact (grows_nativeWrite _ _ _).after (.of_note htake rfl rfl rfl rfl rfl rfl)
  · exact .of_note htake rfl rfl rfl rfl rfl rfl

theorem grows_transform (chunk : Buffer) (isBuffer sync : Bool) (k : TransformCb) :
    Grows s (s.transform chunk isBuffer sync k) := by
  unfold transform
  dsimp only
  split
  · exact grows_transformCb _ _ _ (by rintro e ⟨⟩; rfl)
  · refine (grows_processChunk _ _ _ _).after ?_
    split <;> exact .of_eq rfl rfl rfl rfl rfl rfl

theorem grows_runCalling (c : Calling) : Grows s (s.runCalling c) := by
  cases c with
  | transform sync =>
    simp only [runCalling]
    split
    · exact (grows_transform _ _ _ _).after (.of_eq rfl rfl rfl rfl rfl rfl)
    · exact .of_eq rfl rfl rfl rfl rfl rfl
  | flush => exact (grows_transform _ _ _ _).after (.of_eq rfl rfl rfl rfl rfl rfl)

theorem grows_callback (k : TransformCb) (out : Buffer) : Grows s (s.callback k out) := by
  unfold callback
  split
  · exact .refl
  · refine ⟨rfl, rfl, ⟨[.user, .cb k], rfl, by simp [Frame.Nested]⟩, List.suffix_cons _ _,
      fun h => h.of_note (e := .push out) (by simp) rfl rfl, out, ?_, rfl⟩
    cases out <;> simp [emit]

theorem grows_runTick (t : Tick) : Grows s (s.runTick t) := by
  cases t with
  | transformCb k => exact grows_transformCb _ _ _ (by simp)
  | flushCb id => exact grows_callUser (some id) true
  | writeError callback => exact grows_callUser _ _
  | closeCb id => exact grows_emit _ (by simp)
  | emitClose => exact grows_emit _ (by simp)

theorem grows_emitEnd : Grows s s.emitEnd := by
  unfold emitEnd
  exact (grows_close none).after
    ⟨rfl, rfl, ⟨[.user, .endListeners _], rfl, by simp [Frame.Nested]⟩, List.suffix_cons _ _,
      fun _ => ⟨fun _ => List.mem_cons_self, fun _ => rfl⟩, [], (List.append_nil _).symm,
      (List.append_nil _).symm⟩

/-- Where the special frames are, what they say about `end()`, and that 'end' is noted. -/
structure Shape (s : Engine σ) : Prop where
  ended : s.ws.ended = true → s.ws.ending = true
  ending : s.ws.ending = true → s.ws.ended = true ∨ .ended ∈ s.stack
  endedFrame : .ended ∈ s.stack → s.ws.ending = true
  plain : ∀ e, .emitError e ∈ s.stack → e.errno = none
  bottom : ∀ f ∈ s.stack.dropLast, f ≠ .afterShim ∧ f ≠ .sendError
  emitted : s.Emitted

theorem Shape.init (mode : Mode) (m : Script.Number) (h : ℤ) (x : σ) :
    (Engine.init mode m h x).Shape := by
  constructor <;> simp [Engine.init, Emitted]

theorem Shape.grow (hs : s.Shape) (h : Grows s s') : s'.Shape := by
  obtain ⟨fs, hfs, hn⟩ := h.stack
  refine ⟨?_, ?_, ?_, ?_, ?_, ?_⟩
  · rw [h.ended, h.ending]; exact hs.ended
  · rw [h.ended, h.ending, hfs]
    exact fun he => (hs.ending he).imp_right (List.mem_append_right fs)
  · rw [h.ending, hfs, List.mem_append]
    rintro (hf | hf)
    · exact absurd rfl (hn _ hf).2.2.1
    · exact hs.endedFrame hf
  · intro e he
    rw [hfs, List.mem_append] at he
    rcases he with hf | hf
    · exact (hn _ hf).2.2.2 e rfl
    · exact hs.plain e hf
  · intro f hf
    rw [hfs] at hf
    rcases List.eq_nil_or_concat' s.stack with hnil | ⟨gs, g, hg⟩
    · rw [hnil, List.append_nil] at hf
      have := hn f (List.dropLast_subset _ hf)
      exact ⟨this.1, this.2.1⟩
    · rw [hg, ← List.append_assoc, List.dropLast_concat, List.mem_append] at hf
      rcases hf with hf | hf
      · exact ⟨(hn f hf).1, (hn f hf).2.1⟩
      · exact hs.bottom f (by rw [hg, List.dropLast_concat]; exact hf)
  · exact h.emitted hs.emitted

/-- Popping a frame other than `ended` keeps the shape. -/
theorem Shape.pop {f : Frame} {fs : List Frame} (hs : s.Shape) (hf : s.stack = f :: fs)
    (hne : f ≠ .ended) : ({ s with stack := fs } : Engine σ).Shape := by
  refine ⟨hs.ended, ?_, ?_, ?_, ?_, hs.emitted⟩
  · intro he
    refine (hs.ending he).imp_right fun hm => ?_
    rw [hf, List.mem_cons] at hm
    exact hm.resolve_left (Ne.symm hne)
  · intro hm; exact hs.endedFrame (by rw [hf]; exact List.mem_cons_of_mem _ hm)
  · intro e hm; exact hs.plain e (by rw [hf]; exact List.mem_cons_of_mem _ hm)
  · intro g hg
    refine hs.bottom g ?_
    rw [hf]
    cases fs with
    | nil => simp at hg
    | cons b bs => exact List.mem_cons_of_mem _ hg

/-- A frame that can run, run on a stack without it. -/
theorem grows_runFrame {f : Frame} (hd : f ≠ .ended)
    (he : ∀ e, f = .emitError e → e.errno = none) : Grows s (s.runFrame f) := by
  cases f with
  | user => exact .refl
  | cb k => exact grows_transformCb _ _ _ (by simp)
  | clearBuffer =>
    simp only [runFrame]
    split
    · exact .of_cons (f := .clearBuffer) rfl rfl rfl (by simp [Frame.Nested]) rfl rfl rfl
    · exact .of_eq rfl rfl rfl rfl rfl rfl
  | afterWrite finished callback =>
    simp only [runFrame]
    split
    · exact ⟨rfl, rfl, ⟨[.user, .drain _, .writeCb callback], rfl, by simp [Frame.Nested]⟩,
        List.suffix_rfl, id, [], by simp⟩
    · exact .of_cons (f := .writeCb callback) rfl rfl rfl (by simp [Frame.Nested]) rfl rfl rfl
  | drain listeners =>
    cases listeners with
    | nil => exact .refl
    | cons callback rest =>
      exact (grows_flush callback).after
        ⟨rfl, rfl, ⟨[.user, .drain rest], rfl, by simp [Frame.Nested]⟩, List.suffix_rfl, id, [],
          by simp⟩
  | writeCb callback =>
    exact (grows_callUser callback true).after
      (.of_cons (f := .finishMaybe) rfl rfl rfl (by simp [Frame.Nested]) rfl rfl rfl)
  | finishMaybe =>
    simp only [runFrame]
    split
    · exact .of_cons rfl rfl rfl nested_user rfl rfl rfl
    · exact .refl
  | ended => exact absurd rfl hd
  | emitError e => exact grows_emit _ (by simp)
  | endListeners ids =>
    cases ids with
    | nil => exact .refl
    | cons id ids =>
      exact (grows_callUser (some id) true).after
        (.of_cons (f := .endListeners ids) rfl rfl rfl (by simp [Frame.Nested]) rfl rfl rfl)
  | afterShim => exact .of_eq rfl rfl rfl rfl rfl rfl
  | sendError => exact .of_eq rfl rfl rfl rfl rfl rfl

theorem Shape.endWritable (hs : s.Shape) : s.endWritable.Shape := by
  unfold Engine.endWritable
  split
  · exact hs
  · next hn =>
    have hnd : s.ws.ended = false := by
      cases hd : s.ws.ended with
      | false => rfl
      | true => exact absurd (hs.ended hd) hn
    refine ⟨fun _ => rfl, fun _ => .inr (by simp), fun _ => rfl, ?_, ?_, hs.emitted⟩
    · intro e he
      exact hs.plain e (by simpa using he)
    · intro f hf
      cases hst : s.stack with
      | nil =>
        rw [hst] at hf
        simp only [List.dropLast_cons_cons, List.dropLast_singleton, List.mem_singleton] at hf
        simp [hf]
      | cons b bs =>
        rw [hst] at hf
        simp only [List.dropLast_cons_cons, List.mem_cons] at hf
        rcases hf with rfl | rfl | hf
        · simp
        · simp
        · exact hs.bottom f (by rw [hst]; exact hf)

theorem Shape.userCall (hs : s.Shape) (a : Act) : (s.userCall a).Shape := by
  cases a with
  | write chunk => exact hs.grow (grows_write _)
  | flush hasCallback =>
    cases hasCallback
    · exact hs.grow (grows_flush none)
    · exact hs.grow ((grows_flush _).after
        (.of_note (e := .flush s.nextFlush) (by simp) rfl rfl rfl rfl rfl rfl))
  | endWritable => exact hs.endWritable
  | close hasCallback =>
    cases hasCallback
    · exact hs.grow (grows_close none)
    · exact hs.grow ((grows_close (some s.nextClose)).after (.of_eq rfl rfl rfl rfl rfl rfl))
  | demand wants => exact hs.grow (.of_eq rfl rfl rfl rfl rfl rfl)
  | read => exact { hs with }
  | _ => exact hs

/-- The native call starts on an empty stack. -/
theorem Shape.afterShim (hs : s.Shape) (he : s.stack = []) : s.afterShim.Shape := by
  have base : ∀ f : Frame, f ≠ .ended → (∀ e, f = .emitError e → e.errno = none) →
      ∀ t : Engine σ, t.ws.ended = s.ws.ended → t.ws.ending = s.ws.ending → t.stack = [f] →
        t.rs = s.rs → t.log = s.log → t.Shape := by
    intro f hf hfe t h1 h2 h3 h4 h5
    refine ⟨by rw [h1, h2]; exact hs.ended, ?_, ?_, ?_, by simp [h3], ?_⟩
    · rw [h1, h2, h3]
      exact fun hd => (hs.ending hd).imp_right (by simp [he])
    · rw [h3, List.mem_singleton]; exact fun h => absurd h.symm hf
    · intro e hm
      rw [h3, List.mem_singleton] at hm
      exact hfe e hm.symm
    · rw [Emitted, h4, h5]; exact hs.emitted
  unfold Engine.afterShim
  dsimp only
  split
  · refine (base .sendError (by simp) (by simp) _ ?_ ?_ ?_ ?_ ?_).grow (grows_emit _ (by simp)) <;>
      simp [he]
  · have h : ({ s with
        ctx := ({ s.ctx with workReq := none } : VcdCtx σ).finishWrite.1
        stack := .afterShim :: s.stack } : Engine σ).Shape :=
      base .afterShim (by simp) (by simp) _ rfl rfl (by simp [he]) rfl rfl
    split
    · exact h.grow (grows_callback _ _)
    · exact h

theorem Shape.step (hs : s.Shape) (h : step K s a = some s') : s'.Shape := by
  obtain ⟨-, h⟩ := step_moves h
  cases h with
  | @work w ctx calls =>
    exact hs.grow (.of_note (e := .work calls) (by simp) rfl rfl rfl rfl rfl rfl)
  | workFail => exact hs.grow (.of_eq rfl rfl rfl rfl rfl rfl)
  | afterShim _ he => exact hs.afterShim he
  | tick => exact hs.grow ((grows_runTick _).after (.of_eq rfl rfl rfl rfl rfl rfl))
  | emitEnd => exact hs.grow grows_emitEnd
  | calling => exact hs.grow (grows_runCalling _)
  | user => exact hs.userCall _
  | @frame f fs hc hst =>
    by_cases hf : f = .ended
    · subst hf
      have hend := hs.endedFrame (by simp [hst])
      refine ⟨fun _ => hend, fun _ => .inl rfl, fun _ => hend, ?_, ?_, hs.emitted⟩
      · intro e he
        exact hs.plain e (by rw [hst]; exact List.mem_cons_of_mem _ he)
      · intro g hg
        refine hs.bottom g ?_
        rw [hst]
        cases fs with
        | nil => simp [runFrame] at hg
        | cons b bs => exact List.mem_cons_of_mem _ hg
    · refine (hs.pop hst hf).grow (grows_runFrame hf fun e he => ?_)
      exact hs.plain e (by simp [hst, he])

/-- The history only grows. -/
theorem step_log (hs : s.Shape) (h : step K s a = some s') : s.log <:+ s'.log := by
  obtain ⟨-, h⟩ := step_moves h
  cases h with
  | work => exact List.suffix_cons _ _
  | workFail => exact List.suffix_rfl
  | afterShim =>
    unfold afterShim
    dsimp only
    split
    · exact List.suffix_cons _ _
    · split
      · refine List.IsSuffix.trans ?_ (grows_callback _ _).log
        exact List.suffix_rfl
      · exact List.suffix_rfl
  | @tick t ts => exact (grows_runTick (s := { s with ticks := ts }) t).log
  | emitEnd => exact grows_emitEnd.log
  | calling => exact (grows_runCalling _).log
  | @frame f fs hc hst =>
    by_cases hf : f = .ended
    · subst hf; exact List.suffix_rfl
    · refine (grows_runFrame (s := { s with stack := fs }) hf fun e he => ?_).log
      exact hs.plain e (by simp [hst, he])
  | user =>
    cases a with
    | write chunk => exact (grows_write _).log
    | flush hasCallback =>
      cases hasCallback
      · exact (grows_flush none).log
      · refine List.IsSuffix.trans ?_ (grows_flush _).log
        exact List.suffix_cons _ _
    | endWritable =>
      simp only [userCall, endWritable]
      split <;> exact List.suffix_rfl
    | close hasCallback =>
      cases hasCallback
      · exact (grows_close none).log
      · exact (grows_close (s := { s with nextClose := s.nextClose + 1 }) (some s.nextClose)).log
    | _ => exact List.suffix_rfl

/-- Only `end()` sets `ending`. -/
theorem step_ending (hs : s.Shape) (h : step K s a = some s') (ha : a ≠ .endWritable) :
    s'.ws.ending = s.ws.ending := by
  obtain ⟨-, h⟩ := step_moves h
  cases h with
  | work => rfl
  | workFail => rfl
  | afterShim =>
    unfold afterShim
    dsimp only
    split
    · rfl
    · split
      · exact (grows_callback (s := { s with
          ctx := ({ s.ctx with workReq := none } : VcdCtx σ).finishWrite.1
          stack := .afterShim :: s.stack }) _ _).ending
      · rfl
  | @tick t ts => exact (grows_runTick (s := { s with ticks := ts }) t).ending
  | emitEnd => exact grows_emitEnd.ending
  | calling => exact (grows_runCalling _).ending
  | @frame f fs hc hst =>
    by_cases hf : f = .ended
    · subst hf; rfl
    · refine (grows_runFrame (s := { s with stack := fs }) hf fun e he => ?_).ending
      exact hs.plain e (by simp [hst, he])
  | user =>
    cases a with
    | write chunk => exact (grows_write _).ending
    | flush hasCallback =>
      cases hasCallback
      · exact (grows_flush none).ending
      · exact (grows_flush (s := ({ s with nextFlush := s.nextFlush + 1 } : Engine σ).note
          (.flush s.nextFlush)) (some s.nextFlush)).ending
    | endWritable => exact absurd rfl ha
    | close hasCallback =>
      cases hasCallback
      · exact (grows_close none).ending
      · exact (grows_close (s := { s with nextClose := s.nextClose + 1 }) (some s.nextClose)).ending
    | _ => rfl

/-- What is pushed goes to the readable side, whose consumer takes everything at once. -/
theorem step_output (hs : s.Shape) (h : step K s a = some s') :
    (∃ o, s'.rs.buffer.flatten = s.rs.buffer.flatten ++ o ∧
      s'.log.pushed = s.log.pushed ++ o) ∨
    (a = .read ∧ s' = { s with rs.buffer := [] }) := by
  obtain ⟨-, h⟩ := step_moves h
  have same : ∀ t : Engine σ, t.rs.buffer = s.rs.buffer → t.log.pushed = s.log.pushed →
      ∃ o, t.rs.buffer.flatten = s.rs.buffer.flatten ++ o ∧ t.log.pushed = s.log.pushed ++ o :=
    fun t h1 h2 => ⟨[], by rw [h1, List.append_nil], by rw [h2, List.append_nil]⟩
  cases h with
  | work => exact .inl (same _ rfl rfl)
  | workFail => exact .inl (same _ rfl rfl)
  | afterShim =>
    left
    unfold afterShim
    dsimp only
    split
    · exact same _ rfl rfl
    · split
      · exact (grows_callback (s := { s with
          ctx := ({ s.ctx with workReq := none } : VcdCtx σ).finishWrite.1
          stack := .afterShim :: s.stack }) _ _).output
      · exact same _ rfl rfl
  | @tick t ts => exact .inl (grows_runTick (s := { s with ticks := ts }) t).output
  | emitEnd => exact .inl grows_emitEnd.output
  | calling => exact .inl (grows_runCalling _).output
  | @frame f fs hc hst =>
    left
    by_cases hf : f = .ended
    · subst hf; exact same _ rfl rfl
    · refine (grows_runFrame (s := { s with stack := fs }) hf fun e he => ?_).output
      exact hs.plain e (by simp [hst, he])
  | user =>
    cases a with
    | write chunk => exact .inl (grows_write _).output
    | flush hasCallback =>
      cases hasCallback
      · exact .inl (grows_flush none).output
      · have hflush := grows_flush (some s.nextFlush)
          (s := ({ s with nextFlush := s.nextFlush + 1 } : Engine σ).note (.flush s.nextFlush))
        exact .inl hflush.output
    | endWritable =>
      simp only [userCall, endWritable]
      split <;> exact .inl (same _ rfl rfl)
    | close hasCallback =>
      cases hasCallback
      · exact .inl (grows_close none).output
      · exact .inl (grows_close (s := { s with nextClose := s.nextClose + 1 })
          (some s.nextClose)).output
    | read => exact .inr ⟨rfl, rfl⟩
    | _ => exact .inl (same _ rfl rfl)

end Engine

end NodeVcdiff
