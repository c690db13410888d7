import NodeVcdiff.Context

/-!
# How the context drives its coder

What one execution of `Process` does to the calls a coder has received, and what a sequence
of writes, each completed before the next, does to the coder, the state and the output.
-/

namespace NodeVcdiff

/-- The call sequences a context produces: `Start` first and only first, and nothing after
`Finish` or after a failed call. -/
inductive Protocol : List Call → Prop where
  | nil : Protocol []
  | start (e : Error) (o : Buffer) : Protocol [.start e o]
  | snoc {cs : List Call} {p : Call} : Protocol cs → cs ≠ [] →
      (∀ q ∈ cs, q.isFinish = false ∧ q.failed = false) → p.isStart = false →
      Protocol (cs ++ [p])

/-- The last call is the start, or follows calls that leave the coder live. -/
theorem Protocol.snoc_cases {cs : List Call} {p : Call} (h : Protocol (cs ++ [p])) :
    (cs = [] ∧ p.isStart = true) ∨ (Protocol cs ∧ cs ≠ [] ∧
      (∀ q ∈ cs, q.isFinish = false ∧ q.failed = false) ∧ p.isStart = false) := by
  generalize hcs : cs ++ [p] = ds at h
  cases h with
  | nil => simp at hcs
  | start e o =>
    obtain ⟨rfl, hp⟩ := List.append_inj' (hcs.trans (List.nil_append _).symm) rfl
    exact .inl ⟨rfl, by rw [(List.cons.inj hp).1]; rfl⟩
  | snoc h hne hlive hp =>
    obtain ⟨rfl, hq⟩ := List.append_inj' hcs rfl
    obtain rfl := (List.cons.inj hq).1
    exact .inr ⟨h, hne, hlive, hp⟩

theorem Protocol.start_only_first {cs : List Call} (h : Protocol cs) :
    cs = [] ∨ ∃ p ps, cs = p :: ps ∧ p.isStart ∧ ∀ q ∈ ps, q.isStart = false := by
  induction h with
  | nil => exact .inl rfl
  | start e o => exact .inr ⟨_, [], rfl, rfl, by simp⟩
  | @snoc cs p _ hne _ hp ih =>
    obtain rfl | ⟨q, qs, rfl, hq, hqs⟩ := ih
    · exact absurd rfl hne
    · refine .inr ⟨q, qs ++ [p], rfl, hq, fun r hr => ?_⟩
      rcases List.mem_append.mp hr with hr | hr
      · exact hqs r hr
      · rw [List.mem_singleton.mp hr]; exact hp

theorem Protocol.countP_isStart {cs : List Call} (h : Protocol cs) (hne : cs ≠ []) :
    cs.countP Call.isStart = 1 := by
  obtain rfl | ⟨p, ps, rfl, hp, hps⟩ := h.start_only_first
  · exact absurd rfl hne
  · rw [List.countP_cons_of_pos hp, List.countP_eq_zero.mpr (by simpa using hps)]

/-- A call that ends the coder's work. -/
def Call.stops (p : Call) : Bool := p.isFinish || p.failed

theorem Protocol.stops_only_last {cs before after : List Call} {p : Call} (h : Protocol cs)
    (hcs : cs = before ++ p :: after) (hp : p.stops) : after = [] := by
  cases h with
  | nil => simp at hcs
  | start e o =>
    rcases before with _ | ⟨b, bs⟩
    · exact (List.cons.inj hcs).2.symm
    · simp at hcs
  | @snoc cs' q _ _ hlive _ =>
    rcases List.eq_nil_or_concat' after with rfl | ⟨mid, r, rfl⟩
    · rfl
    · have heq : cs' ++ [q] = (before ++ p :: mid) ++ [r] := by simpa using hcs
      have hcs' := (List.append_inj' heq rfl).1
      have := hlive p (by simp [hcs'])
      simp [Call.stops, this.1, this.2] at hp

namespace VcdCtx

variable {σ : Type*} {K : Coder σ} {c c' : VcdCtx σ} {x : σ} {data : Buffer}
  {isLast async : Bool} {cs new : List Call}

/-! ## One execution of `Process` -/

theorem process_done (hx : c.coder = some x) (hs : c.state = .done) :
    c.process K data isLast = .ok (c, []) := by
  simp [process, stage, hx, hs]

theorem process_processing (hx : c.coder = some x) (hs : c.state = .processing) :
    c.process K data isLast = .ok (
      let p := processData K c x data isLast
      if isLast ∧ (K.process x data).err = .ok then
        let q := processFinalizing K p.1 (K.process x data).next
        (q.1, p.2 ++ q.2)
      else p) := by
  by_cases he : (K.process x data).err = .ok <;> cases isLast <;>
    simp [process, stage, processData, processFinalizing, hx, hs, he]

theorem process_idle (hx : c.coder = some x) (hs : c.state = .idle)
    (ho : c.outputBuffer = []) :
    c.process K data isLast =
      let p := processIdle K c x
      if (K.start x).err = .ok then (p.1.process K data isLast).map fun q => (q.1, p.2 ++ q.2)
      else .ok p := by
  by_cases he : (K.start x).err = .ok
  · by_cases he' : (K.process (K.start x).next data).err = .ok <;> cases isLast <;>
      simp [process, stage, processIdle, processData, processFinalizing, hx, hs, ho, he, he',
        Except.map]
  · simp [process, stage, processIdle, hx, hs, ho, he]

/-- What the state and the stored error say about the calls made so far. -/
structure Tracks (c : VcdCtx σ) (cs : List Call) : Prop where
  protocol : Protocol cs
  idle : c.state = .idle ↔ cs = []
  stopped : c.state = .done ↔ ∃ q ∈ cs, q.stops
  notFinalizing : c.state ≠ .finalizing
  err : c.err = .ok ↔ ∀ q ∈ cs, q.failed = false

theorem Tracks.create (x : σ) : Tracks (VcdCtx.create x) [] where
  protocol := .nil
  idle := by simp [VcdCtx.create]
  stopped := by simp [VcdCtx.create]
  notFinalizing := by simp [VcdCtx.create]
  err := by simp [VcdCtx.create]

theorem Tracks.congr {c c' : VcdCtx σ} {cs : List Call} (h : Tracks c cs)
    (hs : c'.state = c.state) (he : c'.err = c.err) : Tracks c' cs where
  protocol := h.protocol
  idle := hs ▸ h.idle
  stopped := hs ▸ h.stopped
  notFinalizing := hs ▸ h.notFinalizing
  err := he ▸ h.err

/-- The stored error is that of the failed call. -/
def ErrorOf (c : VcdCtx σ) (cs : List Call) : Prop := ∀ q ∈ cs, q.failed → q.err = c.err

inductive CallKind where
  | start
  | process (data : Buffer)
  | finish

def kind : Call → CallKind
  | .start _ _ => .start
  | .process d _ _ => .process d
  | .finish _ _ => .finish

/-- The calls that a write makes when none of them fails. -/
def script (first : Bool) (data : Buffer) (isLast : Bool) : List CallKind :=
  (if first then [.start] else []) ++ .process data :: if isLast then [.finish] else []

/-- The calls of a write follow its script up to the first failure. -/
structure Follows (first : Bool) (data : Buffer) (isLast : Bool) (cs : List Call) : Prop where
  isPrefix : cs.map kind <+: script first data isLast
  onlyLastFails : ∀ q ∈ cs.dropLast, q.failed = false
  complete : (∀ q ∈ cs, q.failed = false) → cs.map kind = script first data isLast

theorem Follows.ne_nil {first : Bool} (h : Follows first data isLast cs) : cs ≠ [] := by
  rintro rfl
  have := h.complete (by simp)
  cases first <;> simp [script] at this

/-- What one execution of `Process` does, apart from the verdicts. -/
structure Processed (c : VcdCtx σ) (data : Buffer) (isLast : Bool) (c' : VcdCtx σ)
    (new : List Call) : Prop where
  coder : c'.coder.isSome
  inBuffer : c'.inBuffer = c.inBuffer
  workReq : c'.workReq = c.workReq
  workDone : c'.workDone = c.workDone
  writeInProgress : c'.writeInProgress = c.writeInProgress
  pendingClose : c'.pendingClose = c.pendingClose
  output : c'.outputBuffer = c.outputBuffer ++ new.flatMap Call.out
  silent : c.state = .done → new = [] ∧ c'.err = c.err
  follows : c.state ≠ .done → Follows (decide (c.state = .idle)) data isLast new
  errorOf : ErrorOf c' new
  stopped : c'.state = .done ↔ c.state = .done ∨ isLast ∨ ∃ q ∈ new, q.failed

/-- The calls are live: more of them may follow. -/
theorem Tracks.live (h : Tracks c cs) (hs : c.state ≠ .done) :
    ∀ q ∈ cs, q.isFinish = false ∧ q.failed = false := by
  intro q hq
  by_contra hn
  refine hs (h.stopped.mpr ⟨q, hq, ?_⟩)
  simp only [Call.stops]
  grind

theorem Tracks.err_of_live (h : Tracks c cs) (hs : c.state ≠ .done) : c.err = .ok :=
  h.err.mpr fun q hq => (h.live hs q hq).2

/-- One more call on a context that had made some before. -/
theorem Tracks.snoc {p : Call} (h : Tracks c cs) (hs : c.state = .processing)
    (hp : p.isStart = false) (herr : c'.err = p.err)
    (hs' : c'.state = if p.stops then .done else .processing) : Tracks c' (cs ++ [p]) := by
  have hne : cs ≠ [] := fun hn => by simp [h.idle.mpr hn] at hs
  have hlive := h.live (by simp [hs])
  refine ⟨.snoc h.protocol hne hlive hp, ?_, ?_, ?_, ?_⟩
  · rw [hs']; split <;> simp
  · rw [hs']
    have hno : ¬ ∃ q ∈ cs, q.stops := by
      rintro ⟨q, hq, hqs⟩
      simp [Call.stops, hlive q hq] at hqs
    split
    · next hps => exact iff_of_true rfl ⟨p, by simp, hps⟩
    · next hps =>
      refine iff_of_false (by simp) ?_
      rintro ⟨q, hq, hqs⟩
      rcases List.mem_append.mp hq with hq | hq
      · exact hno ⟨q, hq, hqs⟩
      · rw [List.mem_singleton.mp hq] at hqs; exact hps hqs
  · rw [hs']; split <;> simp
  · have : c'.err = .ok ↔ p.failed = false := by simp [herr, Call.failed]
    rw [this]
    constructor
    · intro hpf q hq
      rcases List.mem_append.mp hq with hq | hq
      · exact (hlive q hq).2
      · rw [List.mem_singleton.mp hq]; exact hpf
    · intro hall; exact hall p (by simp)

variable (K data isLast) in
/-- `Process` on a context that is past `Start`. -/
theorem process_spec_processing (hx : c.coder = some x) (hs : c.state = .processing)
    (ht : Tracks c cs) : ∃ c' new, c.process K data isLast = .ok (c', new) ∧
      Processed c data isLast c' new ∧ Tracks c' (cs ++ new) := by
  rw [process_processing hx hs]
  by_cases hl : isLast ∧ (K.process x data).err = .ok
  · rw [if_pos hl]
    obtain ⟨rfl, he⟩ := hl
    have hmid : Tracks { c with err := .ok } (cs ++ [.process data .ok (K.process x data).out]) :=
      ht.snoc hs rfl rfl (by simp [hs, Call.stops, Call.isFinish, Call.failed, Call.err])
    have hend : Tracks (processFinalizing K (processData K c x data true).1
        (K.process x data).next).1 ((cs ++ [.process data .ok (K.process x data).out]) ++
          (processFinalizing K (processData K c x data true).1 (K.process x data).next).2) :=
      hmid.snoc hs rfl rfl (by simp [processFinalizing, Call.stops, Call.isFinish])
    refine ⟨_, _, rfl, ?_, ?_⟩
    · constructor <;> simp [processFinalizing, processData, hs, he, Call.out, ErrorOf, Call.failed,
        Call.err]
      constructor <;> simp [kind, script, Call.failed, Call.err]
    · simpa [he, processData, processFinalizing] using hend
  · rw [if_neg hl]
    refine ⟨_, _, rfl, ?_, ht.snoc hs rfl rfl ?_⟩
    · constructor <;> simp [hs, Call.out, ErrorOf, Call.failed, Call.err]
      · constructor
        · cases isLast <;> simp [kind, script]
        · simp
        · intro he; cases isLast <;> simp_all [kind, script, Call.failed, Call.err]
      · grind
    · simp only [Call.stops, Call.isFinish, Call.failed, Call.err]
      grind

/-- A successful `Start` in front of the rest of its write. -/
theorem Processed.after_start {o : Buffer} (h : Processed (processIdle K c x).1 data isLast c' new)
    (hs : c.state = .idle) (hs' : (processIdle K c x).1.state = .processing)
    (ho : (K.start x).out = o) :
    Processed c data isLast c' (.start .ok o :: new) where
  coder := h.coder
  inBuffer := h.inBuffer
  workReq := h.workReq
  workDone := h.workDone
  writeInProgress := h.writeInProgress
  pendingClose := h.pendingClose
  output := by simp [h.output, processIdle, Call.out, ho]
  silent hd := by simp [hs] at hd
  follows _ := by
    have hf := h.follows (by simp [hs'])
    simp only [hs', reduceCtorEq, decide_false] at hf
    simp only [hs, decide_true]
    refine ⟨?_, ?_, fun hall => ?_⟩
    · simpa [script, kind] using hf.isPrefix
    · intro q hq
      rcases new with _ | ⟨n, ns⟩
      · simp at hq
      · rcases List.mem_cons.mp hq with rfl | hq
        · simp [Call.failed, Call.err]
        · exact hf.onlyLastFails q hq
    · have := hf.complete fun q hq => hall q (List.mem_cons_of_mem _ hq)
      simpa [script, kind] using this
  errorOf q hq hfail := by
    rcases List.mem_cons.mp hq with rfl | hq
    · simp [Call.failed, Call.err] at hfail
    · exact h.errorOf q hq hfail
  stopped := by
    rw [h.stopped]
    simp [hs, hs', Call.failed, Call.err]

variable (K data isLast) in
/-- `Process` never trips an assertion between writes, and follows the script. -/
theorem process_spec (hx : c.coder = some x) (ht : Tracks c cs)
    (ho : c.state = .idle → c.outputBuffer = []) :
    ∃ c' new, c.process K data isLast = .ok (c', new) ∧
      Processed c data isLast c' new ∧ Tracks c' (cs ++ new) := by
  cases hs : c.state with
  | finalizing => exact absurd hs ht.notFinalizing
  | done =>
    refine ⟨c, [], process_done hx hs, ?_, by simpa using ht⟩
    constructor <;> simp [hx, hs, ErrorOf]
  | processing => exact process_spec_processing K data isLast hx hs ht
  | idle =>
    obtain rfl := ht.idle.mp hs
    rw [process_idle hx hs (ho hs)]
    have hstart : Tracks (processIdle K c x).1 [.start (K.start x).err (K.start x).out] := by
      refine ⟨.start _ _, ?_, ?_, ?_, ?_⟩ <;>
        by_cases he : (K.start x).err = .ok <;>
        simp [processIdle, he, Call.stops, Call.isFinish, Call.failed, Call.err]
    by_cases he : (K.start x).err = .ok
    · have hs' : (processIdle K c x).1.state = .processing := by simp [processIdle, he]
      obtain ⟨c', new, hp, hdone, ht'⟩ :=
        process_spec_processing K data isLast
          (show (processIdle K c x).1.coder = some (K.start x).next from rfl) hs' hstart
      refine ⟨c', .start .ok (K.start x).out :: new, ?_, ?_, by simpa [he] using ht'⟩
      · rw [if_pos he, hp]
        simp [Except.map, processIdle, he]
      · exact hdone.after_start hs hs' rfl
    · refine ⟨_, _, by rw [if_neg he]; rfl, ?_, hstart⟩
      constructor <;> simp [processIdle, he, hs, Call.out, ErrorOf, Call.failed, Call.err]
      constructor <;> simp [kind, script, Call.failed, Call.err, he]

variable (K) in
/-- `ProcessShim` on a context that holds its coder. -/
theorem processShim_spec (w : WorkData) (hx : c.coder.isSome) (ht : Tracks c cs)
    (ho : c.state = .idle → c.outputBuffer = []) :
    ∃ c' new, c.processShim K w = .ok ({ c' with workDone := true }, new) ∧
      Processed c w.data w.isLast c' new ∧ Tracks c' (cs ++ new) := by
  obtain ⟨x, hx⟩ := Option.isSome_iff_exists.mp hx
  obtain ⟨c', new, hp, hdone, ht'⟩ := process_spec K w.data w.isLast hx ht ho
  exact ⟨c', new, by simp [processShim, hp, Except.map], hdone, ht'⟩

/-! ## Sequences of writes -/

/-- A write driven to its completion: its arguments, the calls it made, how it came back and
the state it left. -/
structure Round where
  data : Buffer
  isLast : Bool
  calls : List Call
  completion : Completion
  state : State

namespace Round

def failed (r : Round) : Bool := r.calls.any Call.failed

/-- A write after which the coder is not called any more. -/
def stops (r : Round) : Bool := r.isLast || r.failed

/-- The bytes a write returned. -/
def returned (r : Round) : Buffer :=
  match r.completion with
  | .result out _ => out
  | .error _ => []

end Round

/-- `Write`, and for an asynchronous one the worker and `AfterShim`. The callees of `onerror`
and `callback` leave the context alone. -/
def runWrite (K : Coder σ) (c : VcdCtx σ) (data : Buffer) (isLast async : Bool) :
    Except Assertion (VcdCtx σ × Round) :=
  if async then do
    let c ← c.writeAsync data isLast
    let p ← c.processShim K ⟨data, isLast⟩
    let q := { p.1 with workReq := none }.complete
    let c := match q.2 with
      | .error _ => q.1
      | .result _ _ => q.1.afterCallback
    .ok (c, ⟨data, isLast, p.2, q.2, c.state⟩)
  else do
    let c ← c.beginWrite data
    let p ← c.process K data isLast
    let q := p.1.complete
    .ok (q.1, ⟨data, isLast, p.2, q.2, q.1.state⟩)

/-- Writes one after the other, each given as data, `isLast` and `async`. -/
def runWrites (K : Coder σ) :
    VcdCtx σ → List (Buffer × Bool × Bool) → Except Assertion (VcdCtx σ × List Round)
  | c, [] => .ok (c, [])
  | c, (data, isLast, async) :: ws => do
    let p ← c.runWrite K data isLast async
    let q ← p.1.runWrites K ws
    .ok (q.1, p.2 :: q.2)

/-- A context between two writes, with the calls its coder has received. -/
structure Between (c : VcdCtx σ) (cs : List Call) : Prop where
  coder : c.coder.isSome
  notInProgress : c.writeInProgress = false
  notPending : c.pendingClose = false
  tracks : Tracks c cs
  output : c.err = .ok → c.outputBuffer = []

/-- One write, from between to between. -/
structure RoundSpec (c : VcdCtx σ) (data : Buffer) (isLast : Bool) (c' : VcdCtx σ)
    (r : Round) : Prop where
  request : r.data = data ∧ r.isLast = isLast
  state : r.state = c'.state
  completion : r.completion =
    if c'.err = .ok then .result (r.calls.flatMap Call.out) (decide (c'.state = .done))
    else .error c'.err
  silent : c.state = .done → r.calls = [] ∧ c'.err = c.err
  follows : c.state ≠ .done → Follows (decide (c.state = .idle)) data isLast r.calls
  errorOf : ErrorOf c' r.calls
  stopped : c'.state = .done ↔ c.state = .done ∨ r.stops

/-- Completing a processed write leads between two writes again. -/
theorem complete_spec {c₁ c₂ : VcdCtx σ} (hb : Between c cs)
    (hp : Processed c₁ data isLast c₂ new) (ht : Tracks c₂ (cs ++ new))
    (hs : c₁.state = c.state) (he : c₁.err = c.err) (hpend : c₁.pendingClose = false)
    (hout : c₁.outputBuffer = c.outputBuffer) :
    Between c₂.complete.1 (cs ++ new) ∧
      RoundSpec c data isLast c₂.complete.1
        ⟨data, isLast, new, c₂.complete.2, c₂.complete.1.state⟩ := by
  have hlive : c.err ≠ .ok → c.state = .done := fun hne => by
    by_contra hn; exact hne (hb.tracks.err_of_live hn)
  have hc : c₂.complete.1.coder = c₂.coder ∧ c₂.complete.1.state = c₂.state ∧
      c₂.complete.1.err = c₂.err ∧ c₂.complete.1.writeInProgress = false ∧
      c₂.complete.1.pendingClose = false := by
    by_cases hok : c₂.err = .ok <;>
      simp [complete, hasError, hok, afterOnerror, finishWrite, hp.pendingClose, hpend]
  obtain ⟨h1, h2, h3, h4, h5⟩ := hc
  refine ⟨⟨by rw [h1]; exact hp.coder, h4, h5, ?_, ?_⟩, ⟨⟨rfl, rfl⟩, rfl, ?_, ?_, ?_, ?_, ?_⟩⟩
  · obtain ⟨a, b, d, e, f⟩ := ht
    exact ⟨a, h2 ▸ b, h2 ▸ d, h2 ▸ e, h3 ▸ f⟩
  · intro hok
    simp [complete, hasError, h3 ▸ hok, finishWrite]
  · rw [h3, h2]
    by_cases hok : c₂.err = .ok
    · have hcok : c.err = .ok := hb.tracks.err.mpr fun q hq =>
        (ht.err.mp hok) q (List.mem_append_left _ hq)
      simp [complete, hasError, hok, finishWrite, hp.output, hout, hb.output hcok]
    · simp [complete, hasError, hok]
  · intro hd
    rw [h3, ← he]
    exact hp.silent (hs.trans hd)
  · intro hd
    rw [← hs] at hd ⊢
    exact hp.follows hd
  · intro q hq hf
    rw [h3]
    exact hp.errorOf q hq hf
  · rw [h2, hp.stopped, hs]
    simp [Round.stops, Round.failed]

variable (K data isLast async) in
/-- A write between two writes trips no assertion; both versions do the same. -/
theorem runWrite_spec (hb : Between c cs) :
    ∃ c' r, c.runWrite K data isLast async = .ok (c', r) ∧ Between c' (cs ++ r.calls) ∧
      RoundSpec c data isLast c' r := by
  obtain ⟨x, hx⟩ := Option.isSome_iff_exists.mp hb.coder
  have hidle : c.state = .idle → c.outputBuffer = [] := fun hs =>
    hb.output (hb.tracks.err_of_live (by simp [hs]))
  have hbegin : c.beginWrite data =
      .ok { c with writeInProgress := true, inBuffer := some data } := by
    simp [beginWrite, hx, hb.notInProgress, hb.notPending]
  cases async with
  | false =>
    let c₁ : VcdCtx σ := { c with writeInProgress := true, inBuffer := some data }
    obtain ⟨c₂, new, hp, hdone, ht⟩ := process_spec K data isLast (c := c₁) hx
      ⟨hb.tracks.1, hb.tracks.2, hb.tracks.3, hb.tracks.4, hb.tracks.5⟩ hidle
    obtain ⟨h1, h2⟩ := complete_spec hb hdone ht rfl rfl hb.notPending rfl
    refine ⟨_, _, ?_, h1, h2⟩
    simp only [runWrite, hbegin, Bool.false_eq_true, if_false, bind, Except.bind]
    rw [show process K { c with writeInProgress := true, inBuffer := some data } data isLast =
      .ok (c₂, new) from hp]
  | true =>
    let c₁ : VcdCtx σ :=
      { c with
        writeInProgress := true, inBuffer := some data
        workReq := some ⟨data, isLast⟩, workDone := false }
    obtain ⟨c₂, new, hp, hdone, ht⟩ := process_spec K data isLast (c := c₁) hx
      ⟨hb.tracks.1, hb.tracks.2, hb.tracks.3, hb.tracks.4, hb.tracks.5⟩ hidle
    let c₃ : VcdCtx σ := { c₂ with workReq := none, workDone := true }
    let c₀ : VcdCtx σ := { c₁ with workReq := none, workDone := true }
    have hdone' : Processed c₀ data isLast c₃ new :=
      ⟨hdone.1, hdone.2, rfl, rfl, hdone.5, hdone.6, hdone.7, hdone.8, hdone.9, hdone.10,
        hdone.11⟩
    obtain ⟨h1, h2⟩ := complete_spec hb hdone' ⟨ht.1, ht.2, ht.3, ht.4, ht.5⟩ rfl rfl
      hb.notPending rfl
    have hpend : c₃.complete.1.afterCallback = c₃.complete.1 := by
      simp [afterCallback, h1.notPending]
    have htail : (match c₃.complete.2 with
        | .error _ => c₃.complete.1
        | .result _ _ => c₃.complete.1.afterCallback) = c₃.complete.1 := by
      split
      · rfl
      · exact hpend
    refine ⟨_, _, ?_, h1, h2⟩
    simp only [runWrite, writeAsync, hbegin, processShim, if_true, bind, Except.bind, Except.map]
    rw [show process K { c with
      writeInProgress := true, inBuffer := some data,
      workReq := some ⟨data, isLast⟩, workDone := false } data isLast = .ok (c₂, new) from hp]
    simp only [show { c₂ with workReq := none, workDone := true } = c₃ from rfl, htail]

/-- The context after some rounds of writes. -/
structure After (c : VcdCtx σ) (before : List Round) : Prop where
  between : Between c (before.flatMap Round.calls)
  idle : c.state = .idle ↔ before = []
  stopped : c.state = .done ↔ ∃ r ∈ before, r.stops
  errorOf : ErrorOf c (before.flatMap Round.calls)

theorem After.create (x : σ) : After (VcdCtx.create x) [] where
  between := ⟨rfl, rfl, rfl, .create x, fun _ => rfl⟩
  idle := by simp [VcdCtx.create]
  stopped := by simp [VcdCtx.create]
  errorOf := by simp [ErrorOf]

/-- What the protocol requires of the write `r` that follows the writes `before`. -/
structure Conforms (before : List Round) (r : Round) : Prop where
  silent : (∃ q ∈ before, q.stops) → r.calls = []
  script : (∀ q ∈ before, q.stops = false) → Follows before.isEmpty r.data r.isLast r.calls
  state : r.state = .processing ∨ r.state = .done
  done : r.state = .done ↔ ∃ q ∈ before ++ [r], q.stops
  returned : (∀ q ∈ before ++ [r], q.failed = false) → ∃ finished,
    r.completion = .result (r.calls.flatMap Call.out) finished ∧
      (finished = true ↔ ∃ q ∈ before ++ [r], q.isLast)
  reported : ∀ q ∈ before ++ [r], ∀ p ∈ q.calls, p.failed → r.completion = .error p.err

/-- One more write after `before`: it conforms, and the context is one round further. -/
theorem After.next {before : List Round} {r : Round} (h : After c before)
    (hb : Between c' (before.flatMap Round.calls ++ r.calls))
    (hr : RoundSpec c data isLast c' r) : Conforms before r ∧ After c' (before ++ [r]) := by
  have hstop : c'.state = .done ↔ ∃ q ∈ before ++ [r], q.stops := by
    rw [hr.stopped, h.stopped]; simp [or_comm]
  have hcalls : (before ++ [r]).flatMap Round.calls = before.flatMap Round.calls ++ r.calls := by
    simp
  have herr : c'.err = .ok ↔ ∀ q ∈ before ++ [r], q.failed = false := by
    rw [hb.tracks.err, ← hcalls]
    simp only [List.mem_flatMap, Round.failed, List.any_eq_false]
    grind
  have herrOf : ErrorOf c' (before.flatMap Round.calls ++ r.calls) := by
    intro q hq hf
    rcases List.mem_append.mp hq with hq | hq
    · have hdone : c.state = .done := h.between.tracks.stopped.mpr ⟨q, hq, by simp [Call.stops, hf]⟩
      rw [(hr.silent hdone).2]
      exact h.errorOf q hq hf
    · exact hr.errorOf q hq hf
  have hlive : c'.state ≠ .idle := by
    intro hi
    have hnil := (List.append_eq_nil_iff.mp (hb.tracks.idle.mp hi)).2
    have hnd : c.state ≠ .done := fun hd => by simp [hr.stopped.mpr (.inl hd)] at hi
    exact (hr.follows hnd).ne_nil hnil
  refine ⟨⟨?_, ?_, ?_, ?_, ?_, ?_⟩, ⟨by rw [hcalls]; exact hb, ?_, hstop, by rw [hcalls]; exact herrOf⟩⟩
  · intro hs; exact (hr.silent (h.stopped.mpr hs)).1
  · intro hs
    have hnd : c.state ≠ .done := fun hd => by
      obtain ⟨q, hq, hqs⟩ := h.stopped.mp hd
      simp [hs q hq] at hqs
    have hfirst : decide (c.state = .idle) = before.isEmpty := by
      cases before <;> simp [h.idle]
    rw [hr.request.1, hr.request.2, ← hfirst]
    exact hr.follows hnd
  · rw [hr.state]
    cases hc : c'.state with
    | idle => exact absurd hc hlive
    | finalizing => exact absurd hc hb.tracks.notFinalizing
    | processing => exact .inl rfl
    | done => exact .inr rfl
  · rw [hr.state]; exact hstop
  · intro hall
    rw [hr.completion, if_pos (herr.mpr hall)]
    refine ⟨_, rfl, ?_⟩
    rw [decide_eq_true_iff, hstop]
    constructor
    · rintro ⟨q, hq, hs⟩
      exact ⟨q, hq, by simpa [Round.stops, hall q hq] using hs⟩
    · rintro ⟨q, hq, hl⟩
      exact ⟨q, hq, by simp [Round.stops, hl]⟩
  · intro q hq p hp hf
    have hmem : p ∈ before.flatMap Round.calls ++ r.calls := by
      rw [← hcalls]; exact List.mem_flatMap.mpr ⟨q, hq, hp⟩
    have hne : c'.err ≠ .ok := fun hok => by simp [hb.tracks.err.mp hok p hmem] at hf
    rw [hr.completion, if_neg hne, herrOf p hmem hf]
  · simpa using hlive

variable (K) in
/-- Writes after `before` conform one by one. -/
theorem runWrites_conform {before : List Round} (h : After c before)
    (ws : List (Buffer × Bool × Bool)) : ∃ c' rs, c.runWrites K ws = .ok (c', rs) ∧
      rs.map (fun r => (r.data, r.isLast)) = ws.map (fun w => (w.1, w.2.1)) ∧
      After c' (before ++ rs) ∧
      ∀ pre r post, rs = pre ++ r :: post → Conforms (before ++ pre) r := by
  induction ws generalizing c before with
  | nil => exact ⟨c, [], rfl, rfl, by simpa using h, by simp⟩
  | cons w ws ih =>
    obtain ⟨data, isLast, async⟩ := w
    obtain ⟨c₁, r, hrun, hb, hr⟩ := runWrite_spec K data isLast async h.between
    obtain ⟨hconf, hafter⟩ := h.next hb hr
    obtain ⟨c₂, rs, hrun', hreq, hafter', hall⟩ := ih hafter
    refine ⟨c₂, r :: rs, ?_, ?_, by simpa using hafter', ?_⟩
    · simp [runWrites, hrun, hrun', bind, Except.bind]
    · simp [hreq, hr.request]
    · intro pre q post heq
      rcases pre with _ | ⟨p, pre⟩
      · obtain ⟨rfl, rfl⟩ := List.cons.inj heq
        simpa using hconf
      · obtain ⟨rfl, rfl⟩ := List.cons.inj heq
        simpa using hall pre q post rfl

/-- Whatever the coder answers and whatever is written, the coder is driven by its protocol,
every write ends in `PROCESSING` or `DONE` with the right flag, a failure is what each later
write reports, and without one every appended byte is returned once. -/
theorem writes_drive_coder (K : Coder σ) (x : σ) (ws : List (Buffer × Bool × Bool)) :
    ∃ c rs, (VcdCtx.create x).runWrites K ws = .ok (c, rs) ∧
      rs.map (fun r => (r.data, r.isLast)) = ws.map (fun w => (w.1, w.2.1)) ∧
      Protocol (rs.flatMap Round.calls) ∧
      (ws ≠ [] → (rs.flatMap Round.calls).countP Call.isStart = 1) ∧
      (∀ before r after, rs = before ++ r :: after → Conforms before r) ∧
      ((∀ r ∈ rs, r.failed = false) →
        rs.flatMap Round.returned = (rs.flatMap Round.calls).flatMap Call.out) := by
  obtain ⟨c, rs, hrun, hreq, hafter, hconf⟩ := runWrites_conform K (After.create x) ws
  rw [List.nil_append] at hafter
  refine ⟨c, rs, hrun, hreq, hafter.between.tracks.protocol, ?_, by simpa using hconf, ?_⟩
  · intro hne
    refine hafter.between.tracks.protocol.countP_isStart fun hnil => hne ?_
    have hrs := hafter.idle.mp (hafter.between.tracks.idle.mpr hnil)
    simpa [hrs] using hreq.symm
  intro hall
  rw [List.flatMap_assoc]
  refine List.flatMap_congr fun r hr => ?_
  obtain ⟨pre, post, rfl⟩ := List.append_of_mem hr
  obtain ⟨fin, hres, _⟩ := (hconf pre r post rfl).returned (by
    intro q hq
    apply hall
    simp only [List.nil_append, List.mem_append, List.mem_singleton] at hq ⊢
    rcases hq with hq | rfl
    · exact .inl hq
    · exact .inr List.mem_cons_self)
  rw [Round.returned, hres]

end VcdCtx

end NodeVcdiff
