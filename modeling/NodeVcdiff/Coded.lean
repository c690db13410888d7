import NodeVcdiff.Flow

/-!
# What the coder has seen

The calls the coder received, the bytes it was given and the bytes it appended, as long as
nothing failed, and what a failure leaves behind.
-/

namespace NodeVcdiff

variable {σ : Type*}

/-- An event that can still follow a failed coder step. -/
def Event.isQuiet : Event → Bool
  | .take _ | .nativeWrite _ _ | .work _ | .push _ | .transformCb _ _ | .endEvent => false
  | _ => true

/-- An event that the coder's account does not depend on. -/
def Event.isOutside : Event → Bool
  | .nativeWrite _ _ | .work _ | .push _ => false
  | .error e => e.errno.isNone
  | _ => true

/-- The input bytes of a call. -/
def VcdCtx.CallKind.data : VcdCtx.CallKind → Buffer
  | .process d => d
  | _ => []

namespace History

variable {h : History} {e : Event}

/-- `Finish` is called only once a last write was made. -/
def FinishLast (h : History) : Prop :=
  ∀ newer older, h = newer ++ older → (∃ q ∈ older.calls, q.isFinish = true) →
    older.lastWritten = true

theorem FinishLast.cons (hf : h.FinishLast)
    (he : (∃ q ∈ History.calls (e :: h), q.isFinish = true) →
      History.lastWritten (e :: h) = true) : History.FinishLast (e :: h) := by
  intro newer older heq hq
  rcases newer with _ | ⟨e', newer⟩
  · obtain rfl : e :: h = older := heq
    exact he hq
  · exact hf newer older (List.cons.inj heq).2 hq

theorem outside_eq (he : e.isOutside = true) : History.calls (e :: h) = h.calls ∧
    History.handed (e :: h) = h.handed ∧ History.pushed (e :: h) = h.pushed ∧
    History.lastWritten (e :: h) = h.lastWritten ∧
    History.nativeErrors (e :: h) = h.nativeErrors := by
  cases e with
  | nativeWrite l x => cases he
  | work cs => cases he
  | push o => cases he
  | error er =>
    refine ⟨rfl, rfl, rfl, rfl, ?_⟩
    have hn : er.errno = none := by simpa [Event.isOutside] using he
    simp [nativeErrors, Event.nativeErrorOf, hn]
  | _ => exact ⟨rfl, rfl, rfl, rfl, rfl⟩

end History

namespace Core

variable {K : Coder σ} {c c' : Core σ}

/-- The bytes queued for the worker. -/
def inFlight (c : Core σ) : Buffer :=
  match c.ctx.workReq with
  | some w => if c.ctx.workDone then [] else w.data
  | none => []

def lastInFlight (c : Core σ) : Bool :=
  match c.ctx.workReq with
  | some w => !c.ctx.workDone && w.isLast
  | none => false

/-- The account of a stream without failure. -/
structure Settled (c : Core σ) : Prop where
  last_iff : c.log.lastWritten = true ↔ c.ctx.state = .done ∨ c.lastInFlight = true
  handed_eq : c.log.handed = c.log.processed ++ c.inFlight
  late : c.ctx.state = .done → c.inFlight = []
  output : c.log.pushed ++ c.ctx.outputBuffer = c.log.appended
  empty : c.ctx.workReq = none ∨ c.ctx.workDone = false → c.ctx.outputBuffer = []
  errors : c.log.nativeErrors = []

/-- What a failing execution of `Process`, noted on top of `older`, leaves behind. -/
structure Aftermath (c : Core σ) (newer : History) (older : History) : Prop where
  err : c.ctx.err ≠ .ok
  quiet : ∀ e ∈ newer, e.isQuiet = true
  before : older.hasFailed = false
  pushed : c.log.pushed = older.appended
  errors : c.log.nativeErrors = if c.ctx.workReq.isSome then [] else [nativeError c.ctx.err]

/-- The coder's part of the invariant. -/
structure Coded (c : Core σ) : Prop where
  tracks : VcdCtx.Tracks c.ctx c.log.calls
  errorOf : VcdCtx.ErrorOf c.ctx c.log.calls
  settled : c.ctx.err = .ok → c.Settled
  finishLast : c.log.FinishLast
  failure : ∀ newer calls older, c.log = newer ++ .work calls :: older →
    (∃ q ∈ calls, q.failed = true) → c.Aftermath newer older

theorem Coded.hasFailed (h : c.Coded) : c.log.hasFailed = false ↔ c.ctx.err = .ok := by
  rw [h.tracks.err, History.hasFailed, List.any_eq_false]
  simp

/-- Without an error no execution of `Process` has failed before the entry `e`. -/
theorem Coded.failure_cons (h : c.Coded) (herr : c.ctx.err = .ok) {e : Event}
    (he : ∀ calls, e ≠ .work calls) {newer older : History} {calls : List Call}
    (heq : e :: c.log = newer ++ .work calls :: older) (hfail : ∃ q ∈ calls, q.failed = true) :
    False := by
  cases newer with
  | nil => exact he calls (List.cons.inj heq).1
  | cons e' newer => exact (h.failure newer calls older (List.cons.inj heq).2 hfail).err herr

/-- Steps that the coder takes no part in. -/
theorem Coded.congr (h : c.Coded) (h1 : c'.ctx.workReq = c.ctx.workReq)
    (h2 : c'.ctx.workDone = c.ctx.workDone) (h3 : c'.ctx.state = c.ctx.state)
    (h4 : c'.ctx.err = c.ctx.err) (h5 : c'.ctx.outputBuffer = c.ctx.outputBuffer)
    (new : History) (hlog : c'.log = new ++ c.log) (ho : ∀ e ∈ new, e.isOutside = true)
    (hq : c.ctx.err ≠ .ok → ∀ e ∈ new, e.isQuiet = true) : c'.Coded := by
  induction new generalizing c' with
  | nil =>
    have hl : c'.log = c.log := hlog
    have hin : c'.inFlight = c.inFlight := by simp [inFlight, h1, h2]
    have hla : c'.lastInFlight = c.lastInFlight := by simp [lastInFlight, h1, h2]
    obtain ⟨a, b, d, e, f⟩ := h
    refine ⟨hl ▸ a.congr h3 h4, ?_, ?_, hl ▸ e, ?_⟩
    · rw [hl]; exact fun q hq hf => (b q hq hf).trans h4.symm
    · rw [h4]
      intro hok
      obtain ⟨s1, s2, s3, s4, s5, s6⟩ := d hok
      exact ⟨by rw [hl, h3, hla]; exact s1, by rw [hl, hin]; exact s2, by rw [h3, hin]; exact s3,
        by rw [hl, h5]; exact s4, by rw [h1, h2, h5]; exact s5, hl ▸ s6⟩
    · rw [hl]
      intro newer calls older heq hfail
      obtain ⟨s1, s2, s3, s4, s5⟩ := f newer calls older heq hfail
      exact ⟨h4 ▸ s1, s2, s3, hl ▸ s4, by rw [hl, h1, h4]; exact s5⟩
  | cons e new ih =>
    have hmid : ({ c' with log := new ++ c.log } : Core σ).Coded := ih h1 h2 h3 h4 h5 rfl
      (fun x hx => ho x (List.mem_cons_of_mem _ hx))
      (fun hne x hx => hq hne x (List.mem_cons_of_mem _ hx))
    have he := ho e List.mem_cons_self
    obtain ⟨l1, l2, l3, l4, l5⟩ := History.outside_eq (h := new ++ c.log) he
    have hp : History.processed (e :: (new ++ c.log)) = History.processed (new ++ c.log) := by
      rw [History.processed, l1]; rfl
    have ha : History.appended (e :: (new ++ c.log)) = History.appended (new ++ c.log) := by
      rw [History.appended, l1]; rfl
    rw [List.cons_append] at hlog
    obtain ⟨a, b, d, f, g⟩ := hmid
    simp only at a b f g
    refine ⟨by rw [hlog, l1]; exact a, by rw [hlog, l1]; exact b, ?_, ?_, ?_⟩
    · intro hok
      obtain ⟨s1, s2, s3, s4, s5, s6⟩ := d hok
      exact ⟨by rw [hlog, l4]; exact s1, by rw [hlog, l2, hp]; exact s2, s3,
        by rw [hlog, l3, ha]; exact s4, s5, by rw [hlog, l5]; exact s6⟩
    · rw [hlog]
      refine f.cons fun hfin => ?_
      rw [l1] at hfin
      rw [l4]
      exact f [] _ rfl hfin
    · rw [hlog]
      intro newer calls older heq hfail
      rcases newer with _ | ⟨e', newer⟩
      · obtain rfl := (List.cons.inj heq).1
        cases he
      · obtain ⟨rfl, htail⟩ := List.cons.inj heq
        obtain ⟨s1, s2, s3, s4, s5⟩ := g newer calls older htail hfail
        refine ⟨s1, ?_, s3, by rw [hlog, l3]; exact s4, by rw [hlog, l5]; exact s5⟩
        intro x hx
        rcases List.mem_cons.mp hx with rfl | hx
        · exact hq (h4 ▸ s1) _ List.mem_cons_self
        · exact s2 x hx

/-! ## The steps of a native write -/

theorem Coded.submit {d : Core σ} (h : c.Coded) (hw : c.ctx.workReq = none)
    (herr : c.ctx.err = .ok) (isLast : Bool) (data : Buffer)
    (hctx : d.ctx = { c.ctx with
      writeInProgress := true, inBuffer := some data
      workReq := some ⟨data, isLast⟩, workDone := false })
    (hlog : d.log = .nativeWrite isLast data :: c.log)
    (hlate : c.log.lastWritten = true → data = []) : d.Coded := by
  obtain ⟨s1, s2, s3, s4, s5, s6⟩ := h.settled herr
  have hin : c.inFlight = [] := by simp [inFlight, hw]
  have hla : c.lastInFlight = false := by simp [lastInFlight, hw]
  have hin' : d.inFlight = data := by simp [inFlight, hctx]
  have hla' : d.lastInFlight = isLast := by simp [lastInFlight, hctx]
  have hlast : d.log.lastWritten = (isLast || c.log.lastWritten) := by
    rw [hlog]; cases isLast <;> simp [History.lastWritten]
  refine ⟨?_, ?_, ?_, ?_, ?_⟩
  · rw [hlog]; exact h.tracks.congr (by rw [hctx]) (by rw [hctx])
  · rw [hlog]; exact fun q hq hf => (h.errorOf q hq hf).trans (by rw [hctx])
  · intro _
    refine ⟨?_, ?_, ?_, ?_, ?_, ?_⟩
    · rw [hlast, hla', hctx, Bool.or_eq_true, s1, hla]
      simp [or_comm]
    · rw [hlog, hin']
      show History.handed (.nativeWrite isLast data :: c.log) = c.log.processed ++ data
      rw [History.handed, s2, hin, List.append_nil]
    · rw [hctx, hin']
      exact fun hd => hlate (s1.mpr (.inl hd))
    · rw [hlog, hctx]; exact s4
    · rw [hctx]; exact fun _ => s5 (.inl hw)
    · rw [hlog]; exact s6
  · rw [hlog]
    refine h.finishLast.cons fun hq => ?_
    have := h.finishLast [] _ rfl hq
    rw [← hlog, hlast, this, Bool.or_true]
  · rw [hlog]
    exact fun _ _ _ heq hfail => (h.failure_cons herr (by simp) heq hfail).elim

/-- The worker has run `Process`. -/
theorem Coded.work (h : c.Coded) {w : WorkData} (hw : c.ctx.workReq = some w)
    (hd : c.ctx.workDone = false) (herr : c.ctx.err = .ok) {ctx : VcdCtx σ} {calls : List Call}
    (hp : VcdCtx.Processed c.ctx w.data w.isLast ctx calls)
    (ht : VcdCtx.Tracks ctx (c.log.calls ++ calls)) :
    (({ c with ctx := { ctx with workDone := true } } : Core σ).note (.work calls)).Coded := by
  obtain ⟨s1, s2, s3, s4, s5, s6⟩ := h.settled herr
  have hin : c.inFlight = w.data := by simp [inFlight, hw, hd]
  have hla : c.lastInFlight = w.isLast := by simp [lastInFlight, hw, hd]
  have hcalls : History.calls (.work calls :: c.log) = c.log.calls ++ calls := rfl
  have happ : History.appended (.work calls :: c.log) = c.log.appended ++ calls.flatMap Call.out := by
    rw [History.appended, hcalls, List.flatMap_append]; rfl
  have hproc : History.processed (.work calls :: c.log) =
      c.log.processed ++ calls.flatMap Call.data := by
    rw [History.processed, hcalls, List.flatMap_append]; rfl
  have hbefore : c.log.hasFailed = false := h.hasFailed.mpr herr
  -- without a failure the write's data is what its calls were given
  have hdata : ctx.err = .ok → w.data = calls.flatMap Call.data := by
    intro hok
    by_cases hdone : c.ctx.state = .done
    · rw [(hp.silent hdone).1, ← hin, s3 hdone]; rfl
    · have hall : ∀ q ∈ calls, q.failed = false := fun q hq =>
        ht.err.mp hok q (List.mem_append_right _ hq)
      have hkinds := (hp.follows hdone).complete hall
      have hmap : calls.flatMap Call.data = (calls.map VcdCtx.kind).flatMap VcdCtx.CallKind.data := by
        rw [List.flatMap_map]
        exact List.flatMap_congr fun q _ => by cases q <;> rfl
      rw [hmap, hkinds]
      cases decide (c.ctx.state = .idle) <;> cases w.isLast <;>
        simp [VcdCtx.script, VcdCtx.CallKind.data]
  refine ⟨⟨ht.1, ht.2, ht.3, ht.4, ht.5⟩, ?_, ?_, ?_, ?_⟩
  · intro q hq hf
    rcases List.mem_append.mp hq with hq | hq
    · have := h.tracks.err.mp herr q hq
      rw [this] at hf; cases hf
    · exact hp.errorOf q hq hf
  · intro hok
    have hok' : ctx.err = .ok := hok
    have hall : ∀ q ∈ calls, q.failed = false := fun q hq =>
      ht.err.mp hok' q (List.mem_append_right _ hq)
    refine ⟨?_, ?_, ?_, ?_, ?_, ?_⟩
    · have hlw : History.lastWritten (.work calls :: c.log) = c.log.lastWritten := rfl
      have hla' : (({ c with ctx := { ctx with workDone := true } } : Core σ).note
          (.work calls)).lastInFlight = false := by
        simp only [lastInFlight, note, hp.workReq, hw]; rfl
      rw [hla']
      show History.lastWritten (.work calls :: c.log) = true ↔ ctx.state = .done ∨ false = true
      rw [hlw, s1, hla, hp.stopped]
      have hnf : ¬ ∃ q ∈ calls, q.failed = true := by
        rintro ⟨q, hq, hf⟩
        rw [hall q hq] at hf; cases hf
      simp [hnf]
    · have hin' : (({ c with ctx := { ctx with workDone := true } } : Core σ).note
          (.work calls)).inFlight = [] := by
        simp only [inFlight, note, hp.workReq, hw, if_true]
      rw [hin', List.append_nil]
      show c.log.handed = History.processed (.work calls :: c.log)
      rw [s2, hin, hproc, hdata hok']
    · intro _
      simp only [inFlight, note, hp.workReq, hw, if_true]
    · show c.log.pushed ++ ctx.outputBuffer = History.appended (.work calls :: c.log)
      rw [happ, ← s4, hp.output, s5 (.inr hd), List.append_assoc, List.nil_append]
    · rintro (hn | hn)
      · simp only [note, hp.workReq, hw] at hn; cases hn
      · cases hn
    · exact s6
  · refine h.finishLast.cons fun hq => ?_
    obtain ⟨q, hq, hfin⟩ := hq
    rw [hcalls] at hq
    show c.log.lastWritten = true
    rcases List.mem_append.mp hq with hq | hq
    · exact h.finishLast [] _ rfl ⟨q, hq, hfin⟩
    · rw [s1, hla]
      by_cases hdone : c.ctx.state = .done
      · exact .inl hdone
      · right
        by_contra hl
        have hpre := (hp.follows hdone).isPrefix
        have hmem : VcdCtx.kind q ∈ calls.map VcdCtx.kind := List.mem_map_of_mem hq
        have := hpre.mem hmem
        rw [Bool.eq_false_iff.mpr hl] at this
        cases q with
        | finish e o => cases decide (c.ctx.state = .idle) <;> simp [VcdCtx.script, VcdCtx.kind] at this
        | _ => cases hfin
  · intro newer calls' older heq hfail
    rcases newer with _ | ⟨e', newer⟩
    · obtain ⟨he, rfl⟩ := List.cons.inj (show Event.work calls :: c.log = .work calls' :: older from heq)
      obtain rfl : calls = calls' := by simpa using he
      refine ⟨?_, by simp, hbefore, ?_, ?_⟩
      · intro hok
        obtain ⟨q, hq, hf⟩ := hfail
        have := ht.err.mp hok q (List.mem_append_right _ hq)
        rw [this] at hf; cases hf
      · show c.log.pushed = c.log.appended
        rw [← s4, s5 (.inr hd), List.append_nil]
      · show c.log.nativeErrors = _
        simp only [note, hp.workReq, hw]
        exact s6
    · exact absurd herr (h.failure newer calls' older (List.cons.inj heq).2 hfail).err

/-- `AfterShim` hands the output over. -/
theorem Coded.deliver (h : c.Coded) (herr : c.ctx.err = .ok)
    (hla : c.lastInFlight = false) (hin : c.inFlight = []) (k : TransformCb) :
    (c.deliver k).Coded := by
  obtain ⟨s1, s2, s3, s4, s5, s6⟩ := h.settled herr
  have hlog : (c.deliver k).log = .push c.ctx.outputBuffer :: c.log := by cases k <;> rfl
  have hctx : (c.deliver k).ctx = { c.ctx with
      workReq := none, writeInProgress := false, inBuffer := none, outputBuffer := [] } := by
    cases k <;> rfl
  refine ⟨?_, ?_, ?_, ?_, ?_⟩
  · rw [hlog]; exact h.tracks.congr (by rw [hctx]) (by rw [hctx])
  · rw [hlog]; exact fun q hq hf => (h.errorOf q hq hf).trans (by rw [hctx])
  · intro _
    have hla' : (c.deliver k).lastInFlight = false := by simp [lastInFlight, hctx]
    have hin' : (c.deliver k).inFlight = [] := by simp [inFlight, hctx]
    refine ⟨?_, ?_, fun _ => hin', ?_, fun _ => by rw [hctx], ?_⟩
    · rw [hla', hlog, hctx, ← hla]; exact s1
    · rw [hin', hlog, ← hin]; exact s2
    · rw [hlog, hctx, List.append_nil]; exact s4
    · rw [hlog]; exact s6
  · rw [hlog]
    exact h.finishLast.cons fun hq => h.finishLast [] c.log rfl hq
  · rw [hlog]
    exact fun _ _ _ heq hfail => (h.failure_cons herr (by simp) heq hfail).elim

/-- `AfterShim` reports a failure. -/
theorem Coded.report (h : c.Coded) (hw : c.ctx.workReq.isSome) (herr : c.ctx.err ≠ .ok) :
    c.report.Coded := by
  have hlog : c.report.log = .error (nativeError c.ctx.err) :: c.log := rfl
  refine ⟨h.tracks.congr rfl rfl, h.errorOf, fun hok => absurd hok herr, ?_, ?_⟩
  · rw [hlog]
    exact h.finishLast.cons fun hq => h.finishLast [] c.log rfl hq
  · rw [hlog]
    intro newer calls older heq hfail
    rcases newer with _ | ⟨e', newer⟩
    · simp at heq
    · obtain ⟨rfl, htail⟩ := List.cons.inj heq
      obtain ⟨b1, b2, b3, b4, b5⟩ := h.failure newer calls older htail hfail
      refine ⟨b1, ?_, b3, b4, ?_⟩
      · intro e he
        rcases List.mem_cons.mp he with rfl | he
        · rfl
        · exact b2 e he
      · rw [if_pos hw] at b5
        show History.nativeErrors (.error (nativeError c.ctx.err) :: c.log) = [nativeError c.ctx.err]
        rw [History.nativeErrors, List.filterMap_cons]
        simp only [Event.nativeErrorOf, nativeError, Option.isSome_some, if_true]
        rw [show c.log.filterMap Event.nativeErrorOf = [] from b5]

end Core

end NodeVcdiff
