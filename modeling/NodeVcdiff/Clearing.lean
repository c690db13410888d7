import NodeVcdiff.Stack

/-!
# The write queue between two chunks

As long as no chunk was refused, chunks wait in the queue only behind a current chunk, or
while `clearBuffer` is about to start the first of them, and then nothing else runs.
-/

namespace NodeVcdiff

namespace Engine

variable {σ : Type*} {K : Coder σ} {s s' s'' : Engine σ} {a : Act}

structure Clearing (s : Engine σ) : Prop where
  head : s.stack.head? = some .clearBuffer ↔ s.ws.bufferProcessing = true
  tail : .clearBuffer ∉ s.stack.tail
  queue : s.ws.writing = none → s.ws.bufferedRequest ≠ [] → s.ws.bufferProcessing = true

theorem Clearing.init (mode : Mode) (m : Script.Number) (h : ℤ) (x : σ) :
    (Engine.init mode m h x).Clearing := by
  constructor <;> simp [Engine.init]

/-- The step from `s` to `s'` left the write queue alone and pushed frames other than
`clearBuffer`. -/
structure Still (s s' : Engine σ) : Prop where
  bufferProcessing : s'.ws.bufferProcessing = s.ws.bufferProcessing
  writing : s'.ws.writing = s.ws.writing
  bufferedRequest : s'.ws.bufferedRequest = s.ws.bufferedRequest
  stack : ∃ fs, s'.stack = fs ++ s.stack ∧ .clearBuffer ∉ fs

theorem Still.refl : Still s s := ⟨rfl, rfl, rfl, [], rfl, by simp⟩

theorem Still.after (h' : Still s' s'') (h : Still s s') : Still s s'' := by
  obtain ⟨fs, hfs, hn⟩ := h.stack
  obtain ⟨gs, hgs, hm⟩ := h'.stack
  refine ⟨h'.1.trans h.1, h'.2.trans h.2, h'.3.trans h.3, gs ++ fs, ?_, ?_⟩
  · rw [hgs, hfs, List.append_assoc]
  · rw [List.mem_append, not_or]; exact ⟨hm, hn⟩

theorem Still.of_eq (hw : s'.ws = s.ws) (hs : s'.stack = s.stack) : Still s s' :=
  ⟨by rw [hw], by rw [hw], by rw [hw], [], hs, by simp⟩

theorem still_emit (e : Event) : Still s (s.emit e) := ⟨rfl, rfl, rfl, [.user], rfl, by simp⟩

theorem still_callUser (callback : Option ℕ) (ok : Bool) : Still s (s.callUser callback ok) := by
  cases callback <;> exact ⟨rfl, rfl, rfl, [.user], rfl, by simp⟩

theorem still_close (callback : Option ℕ) : Still s (s.close callback) := by
  cases callback <;> cases hc : s.vcd.closed <;> cases hh : s.vcd.handle <;>
    exact .of_eq (by simp [close, hc, hh, note, nextTick]) (by simp [close, hc, hh, note, nextTick])

/-- Apart from the middle of `clearBuffer` nothing waits without a current chunk. -/
theorem Clearing.idle (h : s.Clearing) (hb : s.ws.bufferProcessing = false)
    (hw : s.ws.writing = none) : s.ws.bufferedRequest = [] := by
  by_contra hq
  simp [h.queue hw hq] at hb

theorem Clearing.not_mem (h : s.Clearing) (hb : s.ws.bufferProcessing = false) :
    .clearBuffer ∉ s.stack := by
  cases hs : s.stack with
  | nil => simp
  | cons f fs =>
    have hne : f ≠ .clearBuffer := fun hf => by
      have := h.head.mp (by simp [hs, hf])
      simp [this] at hb
    have ht := h.tail
    rw [hs, List.tail_cons] at ht
    simp [ht, Ne.symm hne]

/-- `clearBuffer` is not in progress once it is not on the stack. -/
theorem Clearing.of_not_mem (hb : s.ws.bufferProcessing = false) (hs : .clearBuffer ∉ s.stack)
    (hq : s.ws.writing = none → s.ws.bufferedRequest = []) : s.Clearing := by
  refine ⟨iff_of_false (fun hh => hs (List.mem_of_mem_head? hh)) (by rw [hb]; simp),
    fun ht => hs (List.mem_of_mem_tail ht), fun hw hne => absurd (hq hw) hne⟩

theorem Clearing.still {t : Engine σ} (h : s.Clearing) (hb : s.ws.bufferProcessing = false)
    (hs : Still s t) : t.Clearing := by
  obtain ⟨fs, hfs, hn⟩ := hs.stack
  refine .of_not_mem (hs.1.trans hb) ?_ ?_
  · rw [hfs, List.mem_append, not_or]; exact ⟨hn, h.not_mem hb⟩
  · rw [hs.2, hs.3]; exact h.idle hb

/-- A step that touches neither queue nor stack. -/
theorem Clearing.same {t : Engine σ} (h : s.Clearing) (hw : t.ws = s.ws)
    (hs : t.stack = s.stack) : t.Clearing := ⟨by rw [hw, hs]; exact h.head, by rw [hs]; exact h.tail,
      by rw [hw]; exact h.queue⟩

theorem Clearing.writeOrBuffer (h : s.Clearing) (hb : s.ws.bufferProcessing = false)
    (req : WriteReq) : (s.writeOrBuffer req).Clearing := by
  refine .of_not_mem ?_ ?_ ?_
  · unfold Engine.writeOrBuffer; dsimp only; split <;> exact hb
  · unfold Engine.writeOrBuffer; dsimp only; split <;> exact h.not_mem hb
  · unfold Engine.writeOrBuffer
    dsimp only
    split
    · next hw => exact fun hn => absurd hw (by rw [show s.ws.writing = none from hn]; simp)
    · exact fun hn => by simp [doWrite] at hn

theorem Clearing.write (h : s.Clearing) (hb : s.ws.bufferProcessing = false)
    (req : WriteReq) : (s.write req).Clearing := by
  unfold Engine.write
  split
  · exact h.still hb ⟨rfl, rfl, rfl, [.user], rfl, by simp⟩
  · exact h.writeOrBuffer hb req

theorem Clearing.flush (h : s.Clearing) (hb : s.ws.bufferProcessing = false)
    (callback : Option ℕ) : (s.flush callback).Clearing := by
  unfold Engine.flush
  split
  · split <;> exact h.same rfl rfl
  · split
    · split <;> exact h.same rfl rfl
    · split
      · exact h.same rfl rfl
      · exact (h.same (t := { s with vcd.forceFlush := true }) rfl rfl).write hb _

/-- A chunk is done. -/
theorem Clearing.onwrite (h : s.Clearing) (hb : s.ws.bufferProcessing = false) (sync : Bool) :
    (s.onwrite none sync).Clearing := by
  unfold Engine.onwrite
  split
  · exact h
  · next req hw =>
    dsimp only
    split
    · next hc =>
      refine ⟨by simp, ?_, fun _ _ => rfl⟩
      simpa using h.not_mem hb
    · next hc =>
      refine .of_not_mem hb ?_ fun _ => ?_
      · simpa using h.not_mem hb
      · by_contra hq
        refine hc ?_
        cases hbr : s.ws.bufferedRequest with
        | nil => exact absurd hbr hq
        | cons r rs => simp [needFinish, hb]

theorem Clearing.transformCb (h : s.Clearing) (hb : s.ws.bufferProcessing = false)
    (k : TransformCb) (sync : Bool) : (s.transformCb k none sync).Clearing := by
  cases k with
  | afterTransform =>
    exact (h.same (t := { s.note (.transformCb .afterTransform true) with
      ts.transforming := false }) rfl rfl).onwrite hb sync
  | done => exact h.still hb ⟨rfl, rfl, rfl, [.user], rfl, by simp⟩

/-- The step from `s` to `s'` changed neither queue nor stack; it may have deferred the
callback of a call. -/
structure Aside (s s' : Engine σ) : Prop where
  ws : s'.ws = s.ws
  stack : s'.stack = s.stack
  rs : s'.rs = s.rs
  drainListeners : s'.drainListeners = s.drainListeners
  endListeners : s'.endListeners = s.endListeners
  ticks : s'.ticks = s.ticks ∨ ∃ k, s'.ticks = s.ticks ++ [.transformCb k]

theorem Aside.of_eq (h1 : s'.ws = s.ws) (h2 : s'.stack = s.stack) (h3 : s'.rs = s.rs)
    (h4 : s'.drainListeners = s.drainListeners) (h5 : s'.endListeners = s.endListeners)
    (h6 : s'.ticks = s.ticks) : Aside s s' := ⟨h1, h2, h3, h4, h5, .inl h6⟩

theorem Aside.after (h : Aside s' s'') (h1 : s'.ws = s.ws) (h2 : s'.stack = s.stack)
    (h3 : s'.rs = s.rs) (h4 : s'.drainListeners = s.drainListeners)
    (h5 : s'.endListeners = s.endListeners) (h6 : s'.ticks = s.ticks) : Aside s s'' :=
  ⟨h.ws.trans h1, h.stack.trans h2, h.rs.trans h3, h.drainListeners.trans h4,
    h.endListeners.trans h5, h6 ▸ h.ticks⟩

/-- A call of an open stream hands its chunk over or defers its callback. -/
theorem runCalling_aside (c : Calling) (hcl : s.vcd.closed = false) :
    Aside s (s.runCalling c) := by
  have hchunk : ∀ (t : Engine σ) (d : Buffer) (l ff : Bool) (k : TransformCb),
      Aside t (t.processChunk d l ff k) := by
    intro t d l ff k
    unfold processChunk nativeWrite
    dsimp only
    split
    · split
      · exact .of_eq rfl rfl rfl rfl rfl rfl
      · split <;> exact .of_eq rfl rfl rfl rfl rfl rfl
    · exact ⟨rfl, rfl, rfl, rfl, rfl, .inr ⟨k, rfl⟩⟩
  have htrans : ∀ (t : Engine σ) (d : Buffer) (b sync : Bool) (k : TransformCb),
      t.vcd.closed = false → Aside t (t.transform d b sync k) := by
    intro t d b sync k ht
    unfold transform
    dsimp only
    rw [if_neg (by simp [ht])]
    split
    · exact (hchunk _ _ _ _ _).after rfl rfl rfl rfl rfl rfl
    · exact hchunk _ _ _ _ _
  cases c with
  | transform sync =>
    simp only [runCalling]
    split
    · exact (htrans _ _ _ _ _ (by exact hcl)).after rfl rfl rfl rfl rfl rfl
    · exact .of_eq rfl rfl rfl rfl rfl rfl
  | flush => exact (htrans _ _ _ _ _ (by exact hcl)).after rfl rfl rfl rfl rfl rfl

/-- A call of a closed stream is refused. -/
theorem runCalling_closed (c : Calling) (hcl : s.vcd.closed = true) :
    (s.runCalling c).log.Refused ∨ s.runCalling c = { s with calling := none } := by
  have htrans : ∀ (t : Engine σ) (d : Buffer) (b sync : Bool) (k : TransformCb),
      t.vcd.closed = true → (t.transform d b sync k).log.Refused := by
    intro t d b sync k ht
    unfold transform
    simp only [ht, if_true]
    refine ⟨k, ?_⟩
    have hgrow : (t.note (.transformCb k false)).log <:+
        (t.transformCb k (some closedError) sync).log := by
      cases k with
      | afterTransform =>
        exact (grows_onwrite (s := { t.note (.transformCb .afterTransform false) with
          ts.transforming := false }) _ _ (by rintro e ⟨⟩; rfl)).log
      | done => exact List.suffix_cons _ _
    exact hgrow.mem (by simp [note])
  cases c with
  | transform sync =>
    simp only [runCalling]
    split
    · exact .inl (htrans _ _ _ _ _ hcl)
    · exact .inr rfl
  | flush => exact .inl (htrans _ _ _ _ _ hcl)

theorem Clearing.pop (h : s.Clearing) {f : Frame} {fs : List Frame} (hs : s.stack = f :: fs)
    (hf : f ≠ .clearBuffer) :
    s.ws.bufferProcessing = false ∧ ({ s with stack := fs } : Engine σ).Clearing := by
  have hb : s.ws.bufferProcessing = false := by
    by_contra hne
    have := h.head.mpr (by simpa using hne)
    rw [hs] at this
    exact hf (Option.some.inj this)
  refine ⟨hb, .of_not_mem hb ?_ (h.idle hb)⟩
  have := h.not_mem hb
  rw [hs] at this
  exact fun hm => this (List.mem_cons_of_mem _ hm)

theorem Clearing.runFrame (h : s.Clearing) (hb : s.ws.bufferProcessing = false) {f : Frame}
    (hf : f ≠ .clearBuffer) : (s.runFrame f).Clearing := by
  cases f with
  | clearBuffer => exact absurd rfl hf
  | user => exact h
  | cb k => exact h.transformCb hb k false
  | afterWrite finished callback =>
    simp only [Engine.runFrame]
    split
    · exact h.still hb ⟨rfl, rfl, rfl, [.user, .drain _, .writeCb callback], rfl, by simp⟩
    · exact h.still hb ⟨rfl, rfl, rfl, [.writeCb callback], rfl, by simp⟩
  | drain listeners =>
    cases listeners with
    | nil => exact h
    | cons callback rest =>
      exact (h.still (t := { s with stack := .user :: .drain rest :: s.stack }) hb
        ⟨rfl, rfl, rfl, [.user, .drain rest], rfl, by simp⟩).flush hb callback
  | writeCb callback =>
    exact (h.still (t := { s with stack := .finishMaybe :: s.stack }) hb
      ⟨rfl, rfl, rfl, [.finishMaybe], rfl, by simp⟩).still hb (still_callUser _ _)
  | finishMaybe =>
    simp only [Engine.runFrame]
    split
    · exact h.still hb ⟨rfl, rfl, rfl, [.user], rfl, by simp⟩
    · exact h
  | ended => exact h.still hb ⟨rfl, rfl, rfl, [], rfl, by simp⟩
  | emitError e => exact h.still hb (still_emit _)
  | endListeners ids =>
    cases ids with
    | nil => exact h
    | cons id ids =>
      exact (h.still (t := { s with stack := .endListeners ids :: s.stack }) hb
        ⟨rfl, rfl, rfl, [.endListeners ids], rfl, by simp⟩).still hb (still_callUser (some id) true)
  | afterShim => exact h.same rfl rfl
  | sendError => exact h.same rfl rfl

theorem Clearing.userCall (h : s.Clearing) (hb : s.ws.bufferProcessing = false) (a : Act) :
    (s.userCall a).Clearing := by
  cases a with
  | write chunk => exact h.write hb _
  | flush hasCallback =>
    cases hasCallback
    · exact h.flush hb none
    · exact (h.same (t := { s with nextFlush := s.nextFlush + 1 }.note (.flush s.nextFlush))
        rfl rfl).flush hb _
  | endWritable =>
    simp only [Engine.userCall, endWritable]
    split
    · exact h
    · exact h.still hb ⟨rfl, rfl, rfl, [.finishMaybe, .ended], rfl, by simp⟩
  | close hasCallback =>
    cases hasCallback
    · exact h.still hb (still_close none)
    · exact h.still hb ((still_close (some s.nextClose)).after (.of_eq rfl rfl))
  | demand wants => exact h.same rfl rfl
  | read => exact h.same rfl rfl
  | _ => exact h

/-- Where the user's code or a tick runs, `clearBuffer` is not in progress. -/
theorem Clearing.of_loop (h : s.Clearing) (hl : s.atLoop = true) :
    s.ws.bufferProcessing = false := by
  by_contra hne
  have := h.head.mpr (by simpa using hne)
  cases hs : s.stack with
  | nil => simp [hs] at this
  | cons f fs =>
    rw [hs] at this
    obtain rfl := Option.some.inj this
    simp [atLoop, hs] at hl

theorem Clearing.of_userPoint (h : s.Clearing) (hu : s.userPoint = true) :
    s.ws.bufferProcessing = false := by
  simp only [userPoint, Bool.or_eq_true, Bool.and_eq_true, decide_eq_true_eq] at hu
  rcases hu with hl | ⟨_, hu⟩
  · exact h.of_loop hl
  · by_contra hne
    have := h.head.mpr (by simpa using hne)
    rw [hu] at this
    cases this

theorem Clearing.step (hr : s.log.Refused ∨ s.Clearing) (hs : s.Shape)
    (hstep : step K s a = some s') : s'.log.Refused ∨ s'.Clearing := by
  rcases hr with ⟨k, hk⟩ | h
  · exact .inl ⟨k, (step_log hs hstep).mem hk⟩
  obtain ⟨-, hm⟩ := step_moves hstep
  cases hm with
  | work => exact .inr (h.same rfl rfl)
  | workFail => exact .inr (h.same rfl rfl)
  | afterShim _ he =>
    have hb : s.ws.bufferProcessing = false := by
      by_contra hne
      have := h.head.mpr (by simpa using hne)
      simp [he] at this
    right
    unfold Engine.afterShim
    dsimp only
    split
    · exact h.still hb ⟨rfl, rfl, rfl, [.user, .sendError], rfl, by simp⟩
    · have hpush : ({ s with
          ctx := ({ s.ctx with workReq := none } : VcdCtx σ).finishWrite.1
          stack := .afterShim :: s.stack } : Engine σ).Clearing :=
        h.still hb ⟨rfl, rfl, rfl, [.afterShim], rfl, by simp⟩
      split
      · next k _ =>
        refine hpush.still hb ?_
        unfold Engine.callback
        split
        · exact .refl
        · exact ⟨rfl, rfl, rfl, [.user, .cb k], rfl, by simp⟩
      · exact hpush
  | @tick t ts ht hl =>
    have hb := h.of_loop hl
    have h' : ({ s with ticks := ts } : Engine σ).Clearing := h.same rfl rfl
    right
    cases t with
    | transformCb k => exact h'.transformCb hb k false
    | flushCb id => exact h'.still hb (still_callUser (some id) true)
    | writeError callback => exact h'.still hb (still_callUser callback false)
    | closeCb id => exact h'.still hb (still_emit _)
    | emitClose => exact h'.still hb (still_emit _)
  | emitEnd hl =>
    have hb := h.of_loop hl
    exact .inr (h.still hb ((still_close none).after
      ⟨rfl, rfl, rfl, [.user, .endListeners _], rfl, by simp⟩))
  | calling hc =>
    cases hcl : s.vcd.closed with
    | true =>
      refine (runCalling_closed _ hcl).imp_right fun hsame => ?_
      rw [hsame]
      exact h.same rfl rfl
    | false => exact .inr (h.same (runCalling_aside _ hcl).ws (runCalling_aside _ hcl).stack)
  | user _ hu => exact .inr (h.userCall (h.of_userPoint hu) _)
  | @frame f fs hc hst =>
    right
    by_cases hf : f = .clearBuffer
    · subst hf
      have ht : .clearBuffer ∉ fs := by have := h.tail; rwa [hst] at this
      simp only [Engine.runFrame]
      split
      · refine ⟨iff_of_true rfl (h.head.mp (by simp [hst])), ht, fun hw => by simp [doWrite] at hw⟩
      · next hno =>
        refine .of_not_mem rfl ht fun hw => ?_
        cases hq : s.ws.bufferedRequest with
        | nil => rfl
        | cons r rs => exact (hno r rs hw hq).elim
    · exact (h.pop hst hf).2.runFrame (h.pop hst hf).1 hf

end Engine

end NodeVcdiff
