import NodeVcdiff.Listening

/-!
# A one-shot call runs

What a call has passed to its callback follows from what its engine has emitted.
-/

namespace NodeVcdiff

open Script (Number)
open Transition (Reaches anyStep Inevitable)

variable {σ : Type*} {K : Coder σ} {x : σ}

namespace VcdiffBuffer

variable {w w' u : VcdiffBuffer σ} {mode : Mode} {m : Number} {highWaterMark : ℤ} {d : Buffer}
  {pre : List (Except ErrorObject Buffer)} {t : Engine σ} {new : History}

/-- What the callback is to be called with. -/
def outcome (K : Coder σ) (x : σ) (d : Buffer) : Except ErrorObject Buffer :=
  (K.run x [d]).mapError nativeError

variable (x mode m highWaterMark d) in
/-- How far the body of the function has come. -/
def Stage (w : VcdiffBuffer σ) : Prop :=
  (w.script = [.write d, .endWritable, .read] ∧ w.engine = .init mode m highWaterMark x) ∨
  (w.script = [.endWritable, .read] ∧ w.engine.ws.ending = false ∧ w.engine.log.written = d) ∨
  ((w.script = [.read] ∨ w.script = []) ∧ w.engine.ws.ending = true ∧
    w.engine.log.written = d)

variable (pre) in
/-- Nothing was emitted, and the callback was not called since the start of the call. -/
def Waiting (w : VcdiffBuffer σ) : Prop :=
  w.results = pre ∧ w.endListener = pre.isEmpty ∧ .endEvent ∉ w.engine.log ∧
    ∀ e, .error e ∉ w.engine.log

variable (pre) in
/-- 'end' was emitted; it was heard unless an error had been reported before. -/
def Ended (w : VcdiffBuffer σ) : Prop :=
  w.results = (if pre.isEmpty then [.ok w.engine.log.pushed] else pre) ∧
    .endEvent ∈ w.engine.log ∧ ∀ e, .error e ∉ w.engine.log

variable (pre) in
/-- The coder's failure was reported. -/
def Failed (w : VcdiffBuffer σ) : Prop :=
  ∃ err, w.results = pre ++ [.error err] ∧ w.engine.log.nativeErrors = [err] ∧
    err = nativeError w.engine.ctx.err ∧ w.engine.log.hasFailed = true

variable (K x mode m highWaterMark d pre) in
structure Good (w : VcdiffBuffer σ) : Prop where
  reach : Reaches (Engine.step K) (fun s a => a.inTime s) (.init mode m highWaterMark x) w.engine
  closed : w.engine.log.ClosedAtEnd
  accepted : ∀ c, .accept c ∈ w.engine.log → c = [] ∨ c = d
  stage : w.Stage x mode m highWaterMark d
  flow : w.script = [] → (∀ e, .error e ∉ w.engine.log) → w.flow = true
  output : .endEvent ∉ w.engine.log →
    w.buffers.flatten ++ w.engine.rs.buffer.flatten = w.engine.log.pushed ∧
      w.nread = w.buffers.flatten.length
  results : w.Waiting pre ∨ w.Ended pre ∨ w.Failed pre

/-- A call with nothing to write, heard of as `pre` tells. -/
theorem Good.start (hpre : w.results = pre ∧ w.endListener = pre.isEmpty)
    (he : w.engine = .init mode m highWaterMark x) (hb : w.buffers = [] ∧ w.nread = 0)
    (hs : w.script = [.write d, .endWritable, .read] ∨ w.script = [.endWritable, .read] ∧ d = []) :
    Good K x mode m highWaterMark d pre w := by
  have hlog : w.engine.log = [] := by rw [he]; rfl
  refine ⟨he ▸ .refl, ?_, ?_, ?_, ?_, fun _ => ?_, .inl ⟨hpre.1, hpre.2, ?_, ?_⟩⟩
  · rw [hlog]; simp [History.ClosedAtEnd]
  · rw [hlog]; simp
  · rcases hs with hs | ⟨hs, rfl⟩
    · exact .inl ⟨hs, he⟩
    · exact .inr (.inl ⟨hs, by rw [he]; rfl, by rw [hlog]; rfl⟩)
  · rcases hs with hs | ⟨hs, -⟩ <;> simp [hs]
  · rw [hlog, hb.1, hb.2, he]
    exact ⟨rfl, rfl⟩
  · rw [hlog]; simp
  · rw [hlog]; simp

theorem mem_nativeErrors {h : History} {e : ErrorObject} (he : .error e ∈ h)
    (hn : e.errno.isSome) : e ∈ h.nativeErrors :=
  List.mem_filterMap.mpr ⟨_, he, by simp [Event.nativeErrorOf, hn]⟩

/-- The errors of a call are native ones: none before it has failed, the coder's after that. -/
theorem Good.errors (h : Good K x mode m highWaterMark d pre w) :
    (∀ e, .error e ∉ w.engine.log) ∨ w.engine.log.hasFailed = true ∧
      w.engine.log.nativeErrors = [nativeError w.engine.ctx.err] ∧
      ∀ e, .error e ∈ w.engine.log → e = nativeError w.engine.ctx.err :=
  Engine.errors_of_reaches (fun _ _ h => h) h.reach h.closed

/-- A step of the engine other than 'end' is heard. -/
theorem Good.next {a : Engine.Act} (h : Good K x mode m highWaterMark d pre w)
    (hs : w.engine.step K a = some t) (ha : a.inTime w.engine) (hlog : t.log = new ++ w.engine.log)
    (hend : .endEvent ∉ new) (hclosed : t.log.ClosedAtEnd)
    (hacc : ∀ c, .accept c ∈ t.log → c = [] ∨ c = d)
    (hu : u.engine = t ∧ u.endListener = w.endListener ∧ u.results = w.results)
    (hstage : u.Stage x mode m highWaterMark d)
    (hflow : u.script = [] → (∀ e, .error e ∉ t.log) → u.flow = true)
    (hout : .endEvent ∉ t.log → u.buffers.flatten ++ t.rs.buffer.flatten = t.log.pushed ∧
      u.nread = u.buffers.flatten.length) :
    Good K x mode m highWaterMark d pre (new.foldr hear u) := by
  obtain ⟨rfl, hul, hur⟩ := hu
  have hreach := h.reach.tail ha hs
  have hi : u.engine.Invariant := .reaches hreach
  have hnew : ∀ e ∈ new, e ≠ .endEvent := fun e he heq => hend (heq ▸ he)
  have hold : ∀ e, e ∈ w.engine.log → e ∈ u.engine.log := fun e he => by
    rw [hlog]; exact List.mem_append_right _ he
  have herrors : u.engine.log.nativeErrors = History.nativeErrors new ++
      w.engine.log.nativeErrors := by
    rw [hlog]
    exact List.filterMap_append
  rcases Engine.errors_of_reaches (fun _ _ h => h) hreach hclosed with hno | ⟨hf, hne, hall⟩
  · -- no error at all: nothing is heard
    have hnone : ∀ e, .error e ∉ new := fun e he =>
      hno e (by rw [hlog]; exact List.mem_append_left _ he)
    rw [hear_quiet fun e he => ⟨hnew e he, fun err heq => hnone err (heq ▸ he)⟩]
    refine ⟨hreach, hclosed, hacc, hstage, hflow, hout, ?_⟩
    rcases h.results with ⟨h1, h2, h3, -⟩ | ⟨h1, h2, -⟩ | ⟨err, h1, h2, -⟩
    · refine .inl ⟨hur.trans h1, hul.trans h2, ?_, hno⟩
      rw [hlog, List.mem_append, not_or]
      exact ⟨hend, h3⟩
    · have hpushed := (Engine.Invariant.reaches h.reach).pushed_end hi ⟨new, hlog.symm⟩ h2
      exact .inr (.inl ⟨by rw [hur, h1, hpushed], hold _ h2, hno⟩)
    · have hmem : err ∈ u.engine.log.nativeErrors := by rw [herrors, h2]; simp
      obtain ⟨e, he, hee⟩ := List.mem_filterMap.mp hmem
      cases e with
      | error e => exact absurd he (hno e)
      | _ => cases hee
  · set ne := nativeError u.engine.ctx.err with hdef
    have hnend : .endEvent ∉ u.engine.log := fun he => by
      have := (hi.at_end (hi.ended he)).2.1
      rw [hf] at this
      cases this
    rw [herrors] at hne
    rcases List.append_eq_singleton_iff.mp hne with ⟨h1, h2⟩ | ⟨h1, h2⟩
    · -- it was heard before
      have hnone : ∀ e, .error e ∉ new := by
        intro e he
        have hsome : e.errno.isSome := by
          rw [hall e (by rw [hlog]; exact List.mem_append_left _ he)]
          rfl
        have := mem_nativeErrors he hsome
        rw [h1] at this
        cases this
      rw [hear_quiet fun e he => ⟨hnew e he, fun err heq => hnone err (heq ▸ he)⟩]
      refine ⟨hreach, hclosed, hacc, hstage, hflow, hout, .inr (.inr ⟨ne, ?_, ?_, hdef, hf⟩)⟩
      · rcases h.results with ⟨-, -, -, h4⟩ | ⟨-, h4, -⟩ | ⟨err, h4, h5, -⟩
        · have hmem : ne ∈ w.engine.log.nativeErrors := by rw [h2]; simp
          obtain ⟨e, he, hee⟩ := List.mem_filterMap.mp hmem
          cases e with
          | error e => exact absurd he (h4 e)
          | _ => cases hee
        · exact absurd (hold _ h4) hnend
        · rw [h2] at h5
          obtain rfl := List.singleton_inj.mp h5
          exact hur.trans h4
      · rw [herrors, h1, h2]
        rfl
    · -- it is heard now
      obtain ⟨e, he, hee⟩ := List.mem_filterMap.mp (show ne ∈ History.nativeErrors new by
        rw [h1]; simp)
      obtain ⟨e, rfl⟩ : ∃ e', e = .error e' := by
        cases e with
        | error e => exact ⟨e, rfl⟩
        | _ => cases hee
      obtain rfl := hall e (by rw [hlog]; exact List.mem_append_left _ he)
      obtain ⟨newer, older, rfl⟩ := List.append_of_mem he
      have hcount : History.nativeErrors newer ++ ne :: History.nativeErrors older = [ne] := by
        have heq : History.nativeErrors (newer ++ .error ne :: older) =
            History.nativeErrors newer ++ ne :: History.nativeErrors older := by
          simp [History.nativeErrors, Event.nativeErrorOf, hdef, nativeError]
        exact heq.symm.trans h1
      have hnil : History.nativeErrors newer = [] ∧ History.nativeErrors older = [] := by
        have hlen := congrArg List.length hcount
        simp only [List.length_append, List.length_cons, List.length_nil] at hlen
        exact ⟨List.eq_nil_of_length_eq_zero (by omega), List.eq_nil_of_length_eq_zero (by omega)⟩
      have hnone : ∀ part : History, History.nativeErrors part = [] →
          (∀ e ∈ part, e ∈ u.engine.log) → ∀ e, .error e ∉ part := by
        intro part hp hsub e he
        have hsome : e.errno.isSome := by rw [hall e (hsub _ he)]; rfl
        have := mem_nativeErrors he hsome
        rw [hp] at this
        cases this
      have hsub : ∀ e ∈ newer ++ .error ne :: older, e ∈ u.engine.log := fun e he => by
        rw [hlog]; exact List.mem_append_left _ he
      have h3 := hnone newer hnil.1 fun e he => hsub e (List.mem_append_left _ he)
      have h4 := hnone older hnil.2 fun e he =>
        hsub e (List.mem_append_right _ (List.mem_cons_of_mem _ he))
      rw [hear_one
        (fun e he => ⟨hnew e (List.mem_append_left _ he), fun err heq => h3 err (heq ▸ he)⟩)
        (fun e he => ⟨hnew e (List.mem_append_right _ (List.mem_cons_of_mem _ he)),
          fun err heq => h4 err (heq ▸ he)⟩)]
      have hresults : w.results = pre := by
        rcases h.results with ⟨h5, -⟩ | ⟨-, h5, -⟩ | ⟨err, -, h5, -⟩
        · exact h5
        · exact absurd (hold _ h5) hnend
        · rw [h2] at h5; cases h5
      have hmem : .error ne ∈ u.engine.log := hsub _ (List.mem_append_right _ List.mem_cons_self)
      refine ⟨hreach, hclosed, hacc, hstage, fun _ hno => absurd hmem (hno ne), hout,
        .inr (.inr ⟨ne, ?_, ?_, hdef, hf⟩)⟩
      · show u.results ++ [.error ne] = _
        rw [hur, hresults]
      · show u.engine.log.nativeErrors = _
        rw [herrors, h1, h2]
        rfl

/-- 'end' is heard: the callback gets everything that was read. -/
theorem Good.atEnd (h : Good K x mode m highWaterMark d pre w)
    (hs : w.engine.step K .emitEnd = some t) (hlog : t.log = new ++ w.engine.log)
    (hscript : w.script = []) :
    Good K x mode m highWaterMark d pre (new.foldr hear { w with engine := t }) := by
  have hw : w.engine.ws.ending = true ∧ w.engine.log.written = d := by
    rcases h.stage with ⟨hst, -⟩ | ⟨hst, -⟩ | ⟨-, hst⟩
    · rw [hscript] at hst; cases hst
    · rw [hscript] at hst; cases hst
    · exact hst
  have hreach := h.reach.tail (by rintro c ⟨⟩) hs
  have hi : t.Invariant := .reaches hreach
  obtain ⟨hacc', hwritten, hclosed'⟩ := Engine.own_step (a := .emitEnd) trivial hs
  have hclosed := hclosed' h.closed
  have hacc : ∀ c, .accept c ∈ t.log → c = [] ∨ c = d := fun c hc =>
    (hacc' c hc).elim (h.accepted c) .inl
  obtain ⟨hfault, hm⟩ := Engine.step_moves hs
  cases hm with
  | user _ _ hu => cases hu
  | emitEnd hl he hb hne =>
    set s := w.engine with hsdef
    obtain ⟨new', hnew', hn'⟩ := Engine.emitEnd_notes (s := s)
    have hend : .endEvent ∈ s.emitEnd.log := by rw [hnew']; simp
    obtain rfl : new = new' ++ [.endEvent] := by
      have heq : new ++ s.log = new' ++ [.endEvent] ++ s.log := by
        rw [← hlog, hnew', List.append_assoc]
        rfl
      exact List.append_cancel_right heq
    have hnoend : .endEvent ∉ s.log := fun hold => by
      rw [(Engine.Invariant.reaches h.reach).shape.emitted.mpr hold] at hne
      cases hne
    have hnoerr : ∀ e, .error e ∉ s.emitEnd.log := by
      have hf := (hi.at_end (hi.ended hend)).2.1
      rcases Engine.errors_of_reaches (fun _ _ h => h) hreach hclosed with hno | ⟨hf', -⟩
      · exact hno
      · rw [hf] at hf'; cases hf'
    have hlistens : w.results = pre ∧ w.endListener = pre.isEmpty := by
      rcases h.results with ⟨h1, h2, -⟩ | ⟨-, hold, -⟩ | ⟨err, -, h2, -⟩
      · exact ⟨h1, h2⟩
      · exact absurd hold hnoend
      · have hmem : err ∈ s.log.nativeErrors := by rw [h2]; simp
        obtain ⟨e, he, hee⟩ := List.mem_filterMap.mp hmem
        cases e with
        | error e => exact absurd (by rw [hlog]; exact List.mem_append_right _ he) (hnoerr e)
        | _ => cases hee
    obtain ⟨hres, hlis⟩ := hlistens
    have hstage : ∀ v : VcdiffBuffer σ, v.script = [] → v.engine.ws = s.emitEnd.ws →
        v.engine.log.written = s.emitEnd.log.written → v.Stage x mode m highWaterMark d := by
      intro v h1 h2 h3
      obtain ⟨-, hws', -⟩ := Engine.emitEnd_keeps (s := s)
      exact .inr (.inr ⟨.inr h1, by rw [h2, hws']; exact hw.1, h3.trans (hwritten.trans hw.2)⟩)
    rw [hear_one hn' (by simp), hear]
    by_cases hpre : pre.isEmpty = true
    · rw [if_pos (by rw [hlis, hpre]), onEnd]
      -- the engine is closed once more
      obtain ⟨hrs, hws, hcall, hflt⟩ := Engine.close_keeps (s := s.emitEnd) none
      obtain ⟨new₂, hlog₂, -, hn₂⟩ := Engine.close_notes (s := s.emitEnd) none
      obtain ⟨hbuf, hws', hcall', hst'⟩ := Engine.emitEnd_keeps (s := s)
      have hpoint : s.emitEnd.userPoint = true := by
        simp [Engine.userPoint, hcall', hst', Engine.atLoop_calling hl]
      have hstep : Engine.step K s.emitEnd (.close false) = some (s.emitEnd.close none) := by
        have hf : s.emitEnd.fault = none := hi.sound.control.flags.fault
        simp [Engine.step, hf, hpoint, Engine.userCall]
      have hread : w.buffers.flatten = s.log.pushed ∧ w.nread = w.buffers.flatten.length := by
        have := h.output hnoend
        rw [hb] at this
        simpa using this
      have hpushed : s.emitEnd.log.pushed = s.log.pushed := by
        obtain ⟨o, ho, hp⟩ := (Engine.grows_emitEnd (s := s)).output
        rw [hbuf] at ho
        rw [hp, show o = [] by simpa using ho, List.append_nil]
      have hreach₂ := hreach.tail (by rintro c ⟨⟩) hstep
      have hpushed₂ : (s.emitEnd.close none).log.pushed = s.emitEnd.log.pushed :=
        hi.pushed_end (.reaches hreach₂) ⟨new₂, hlog₂.symm⟩ hend
      have hend₂ : .endEvent ∈ (s.emitEnd.close none).log := by
        rw [hlog₂]; exact List.mem_append_right _ hend
      refine ⟨hreach₂, ?_, ?_, ?_, fun hs' _ => ?_, ?_, .inr (.inl ⟨?_, hend₂, ?_⟩)⟩
      · rw [hlog₂]; exact hclosed.after_end hend
      · intro c hc
        rw [hlog₂, List.mem_append] at hc
        rcases hc with hc | hc
        · refine .inl ?_
          have := (hn₂ _ hc).1
          simpa [Event.isInner] using this
        · exact hacc c hc
      · refine hstage _ hscript hws ?_
        rw [hlog₂]
        exact History.written_append fun c hc => by simpa [Event.isInner] using (hn₂ _ hc).1
      · exact h.flow hs' fun e he => hnoerr e (by rw [hlog]; exact List.mem_append_right _ he)
      · exact fun hno => absurd hend₂ hno
      · rw [if_pos hpre]
        show w.results ++ [.ok (Engine.concat w.buffers w.nread)] = _
        rw [hres, List.isEmpty_iff.mp hpre, Core.concat_eq hread.2, hread.1, hpushed₂, hpushed]
        rfl
      · intro e he
        rw [hlog₂, List.mem_append] at he
        rcases he with he | he
        · cases (hn₂ _ he).2
        · exact hnoerr e he
    · rw [if_neg (by rw [hlis]; exact hpre)]
      refine ⟨hreach, hclosed, hacc, hstage _ hscript rfl rfl, fun hs' _ => ?_, ?_,
        .inr (.inl ⟨?_, hend, hnoerr⟩)⟩
      · exact h.flow hs' fun e he => hnoerr e (by rw [hlog]; exact List.mem_append_right _ he)
      · exact fun hno => absurd hend hno
      · rw [if_neg hpre]
        exact hres

/-- A step of the engine outside the body of the function. -/
theorem Good.engine {a : Engine.Act} (h : Good K x mode m highWaterMark d pre w) (ha : w.allows a = true)
    (hp : w.perform K a = some w') : Good K x mode m highWaterMark d pre w' := by
  have hi : w.engine.Invariant := .reaches h.reach
  obtain ⟨t, new, hs, hlog, rfl⟩ := perform_spec hi.shape hp
  have hscript : a ≠ .run → a ≠ .work → w.script = [] := by
    intro h1 h2
    cases a <;> simp_all [allows]
  -- before the body has begun nothing can happen
  have hstage : w.script ≠ [.write d, .endWritable, .read] := by
    intro hst
    rcases h.stage with ⟨-, heng⟩ | ⟨hst', -⟩ | ⟨hst' | hst', -⟩
    · have hnil : w.script ≠ [] := by rw [hst]; simp
      rw [heng] at hs
      cases a with
      | run | work => cases hs
      | _ => exact hnil (hscript (by simp) (by simp))
    all_goals (rw [hst] at hst'; simp at hst')
  by_cases hend : a = .emitEnd
  · subst hend
    exact h.atEnd hs hlog (hscript (by simp) (by simp))
  · have hintime : a.inTime w.engine := by
      rintro c rfl
      cases ha
    have hnend : a ≠ .endWritable := by rintro rfl; cases ha
    have hcalm := (Engine.step_calm hintime hs).log
    obtain ⟨new', hlog', hn'⟩ := hcalm
    obtain rfl : new' = new := List.append_cancel_right (hlog'.symm.trans hlog)
    have hinner : ∀ e ∈ new', e.isInner = true := by
      intro e he
      rcases hn' e he with hin | hal
      · exact hin
      · cases a with
        | emitEnd => exact absurd rfl hend
        | write | flush | close | endWritable => cases ha
        | demand | read | work | afterShim | tick | run => cases hal
    have hwritten : t.log.written = w.engine.log.written := by
      rw [hlog]
      exact History.written_append fun c hc => by simpa [Event.isInner] using hinner _ hc
    refine h.next hs hintime hlog (fun he => by cases hinner _ he) ?_ ?_ ⟨rfl, ?_, ?_⟩ ?_ ?_ ?_
    · rw [hlog]
      exact h.closed.append fun he => by cases hinner _ he
    · intro c hc
      rw [hlog, List.mem_append] at hc
      rcases hc with hc | hc
      · exact .inl (by simpa [Event.isInner] using hinner _ hc)
      · exact h.accepted c hc
    · split
      · exact (flowRead_spec w).2.2.2.1
      · rfl
    · split
      · exact (flowRead_spec w).2.2.2.2.1
      · rfl
    · have hending := Engine.step_ending hi.shape hs hnend
      have hsame : ∀ v : VcdiffBuffer σ, v.script = w.script → v.engine = t →
          v.Stage x mode m highWaterMark d := by
        intro v h1 h2
        refine .inr ?_
        rw [h1, h2, hending, hwritten]
        exact h.stage.resolve_left fun hst => hstage hst.1
      split
      · exact hsame _ (flowRead_spec w).2.2.1 rfl
      · exact hsame _ rfl rfl
    · split
      · exact fun _ _ => (flowRead_spec w).2.2.2.2.2
      · exact fun hs' hno => h.flow hs' fun e he =>
          hno e (by rw [hlog]; exact List.mem_append_right _ he)
    · intro hno
      obtain ⟨hbuf, hread⟩ := h.output fun he => hno (by
        rw [hlog]; exact List.mem_append_right _ he)
      by_cases har : a = .read
      · subst har
        obtain ⟨h1, h2, -⟩ := flowRead_spec w
        rw [step_read hs, if_pos rfl]
        refine ⟨?_, ?_⟩
        · show w.flowRead.buffers.flatten ++ [] = w.engine.log.pushed
          rw [h1, List.append_nil, hbuf]
        · show w.flowRead.nread = w.flowRead.buffers.flatten.length
          rw [h1, h2, hread, List.length_append]
      · rw [if_neg har]
        obtain ⟨o, ho, hpush⟩ := (Engine.step_output hi.shape hs).resolve_right fun h => har h.1
        exact ⟨by rw [ho, hpush, ← hbuf, List.append_assoc], hread⟩

theorem step_write_init (h : ℤ) : Engine.step K (.init mode m h x) (.write d) =
    some ((Engine.init mode m h x).writeOrBuffer ⟨d, none⟩) := rfl

/-- The body writes the input, ends the engine and reads. -/
theorem Good.body {a : Engine.Act} {rest : List Engine.Act} (h : Good K x mode m highWaterMark d pre w)
    (hscript : w.script = a :: rest) (hp : { w with script := rest }.perform K a = some w') :
    Good K x mode m highWaterMark d pre w' := by
  have hi : w.engine.Invariant := .reaches h.reach
  obtain ⟨t, new, hs, hlog, rfl⟩ := perform_spec (w := { w with script := rest }) hi.shape hp
  rcases h.stage with ⟨hst, heng⟩ | ⟨hst, hne, hw⟩ | ⟨hst | hst, he, hw⟩
  · -- `write` on the fresh engine
    obtain ⟨rfl, rfl⟩ := List.cons.inj (hscript.symm.trans hst)
    have hwrite : Engine.step K (.init mode m highWaterMark x) (.write d) = _ := step_write_init highWaterMark
    obtain rfl : (Engine.init mode m highWaterMark x).writeOrBuffer ⟨d, none⟩ = t := by
      simp only [heng, hwrite, Option.some.injEq] at hs
      exact hs
    obtain rfl : new = [.accept d] := by
      rw [heng] at hlog
      exact (List.append_cancel_right (show [.accept d] ++ [] = new ++ [] from hlog)).symm
    refine h.next hs (by rw [heng]; exact fun _ _ => rfl) hlog (by simp) ?_ ?_ ⟨rfl, rfl, rfl⟩ ?_
      ?_ ?_
    · have hnil : History.ClosedAtEnd [] := by simp [History.ClosedAtEnd]
      exact hnil.append (show Event.close ∉ [Event.accept d] by simp)
    · intro c hc
      exact .inr (by simpa [Engine.writeOrBuffer, Engine.init, Engine.doWrite] using hc)
    · exact .inr (.inl ⟨rfl, rfl, rfl⟩)
    · exact fun hno => by cases hno
    · intro _
      obtain ⟨hbuf, hread⟩ := h.output (by rw [heng]; simp [Engine.init])
      rw [heng] at hbuf
      exact ⟨hbuf, hread⟩
  · -- `end`
    obtain ⟨rfl, rfl⟩ := List.cons.inj (hscript.symm.trans hst)
    have ht := step_end hs hne
    have hlog' : t.log = w.engine.log := by rw [ht]
    obtain rfl : new = [] :=
      List.append_cancel_right (show _ ++ w.engine.log = [] ++ _ from hlog.symm.trans hlog')
    refine h.next hs (fun _ h => by cases h) hlog (by simp) (hlog' ▸ h.closed)
      (hlog' ▸ h.accepted) ⟨rfl, rfl, rfl⟩ ?_ (fun hno => by cases hno) ?_
    · exact .inr (.inr ⟨.inl rfl, by rw [ht], hlog' ▸ hw⟩)
    · rw [hlog']
      intro hno
      obtain ⟨hbuf, hread⟩ := h.output hno
      exact ⟨by rw [ht]; exact hbuf, hread⟩
  · -- `read`
    obtain ⟨rfl, rfl⟩ := List.cons.inj (hscript.symm.trans hst)
    have ht := step_read hs
    have hlog' : t.log = w.engine.log := by rw [ht]
    obtain rfl : new = [] :=
      List.append_cancel_right (show _ ++ w.engine.log = [] ++ _ from hlog.symm.trans hlog')
    obtain ⟨h1, h2, h3, h4, h5, h6⟩ := flowRead_spec { w with script := [] }
    rw [if_pos rfl]
    refine h.next hs (fun _ h => by cases h) hlog (by simp) (hlog' ▸ h.closed)
      (hlog' ▸ h.accepted) ⟨rfl, h4, h5⟩ ?_ (fun _ _ => h6) ?_
    · exact .inr (.inr ⟨.inr h3, by rw [ht]; exact he, hlog' ▸ hw⟩)
    · rw [hlog']
      intro hno
      obtain ⟨hbuf, hread⟩ := h.output hno
      refine ⟨?_, ?_⟩
      · rw [ht]
        show ({ w with script := [] } : VcdiffBuffer σ).flowRead.buffers.flatten ++ [] = _
        rw [h1, List.append_nil]
        exact hbuf
      · show ({ w with script := [] } : VcdiffBuffer σ).flowRead.nread = _
        rw [h2, h1, List.length_append]
        exact congrArg (· + _) hread
  · rw [hscript] at hst; cases hst

theorem Good.step {a : Act} (h : Good K x mode m highWaterMark d pre w) (hs : w.step K a = some w') :
    Good K x mode m highWaterMark d pre w' := by
  cases a with
  | body =>
    simp only [VcdiffBuffer.step] at hs
    split at hs
    · next a rest hscript =>
      split at hs
      · exact h.body hscript hs
      · cases hs
    · cases hs
  | engine a =>
    simp only [VcdiffBuffer.step] at hs
    split at hs
    · next ha => exact h.engine ha hs
    · cases hs

end VcdiffBuffer

end NodeVcdiff
