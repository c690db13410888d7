import NodeVcdiff.Failures

/-!
# Strong handles of the native context

`VcdCtx` on its own, under any writes, completions and closes of its caller, with the V8
handles that the context and its coder hold. Destroying a `v8::Persistent` releases nothing.
-/

namespace NodeVcdiff

open Transition (Reaches anyStep)

/-- The members of type `v8::Persistent`. -/
inductive Persistent where
  /-- `VcdCtx::in_buffer_` -/
  | inBuffer
  /-- `VcdDecoder::dictionary_handle_` -/
  | dictionaryHandle
  /-- `VcdEncoder::hashed_dictionary_` -/
  | hashedDictionary
  deriving DecidableEq, Repr

/-- The handles that the constructor of the coder takes. -/
def coderConstructor : Mode → List Persistent
  | .encode => [.hashedDictionary]
  | .decode => [.dictionaryHandle]

/-- `VcdEncoder::~VcdEncoder` and `VcdDecoder::~VcdDecoder`: neither resets a handle. -/
def coderDestructor (held : List Persistent) : List Persistent := held

/-- What runs under a `MakeCallback` of the context. -/
inductive Callee where
  /-- `onerror`, called by `SendError` -/
  | onerror
  /-- `callback`, called by `AfterShim` -/
  | callback
  deriving DecidableEq, Repr

/-- A context, the handles its coder took, and the calls into JavaScript in progress. -/
structure NativeCtx (σ : Type*) where
  ctx : VcdCtx σ
  coderHandles : List Persistent
  callees : List Callee := []

namespace NativeCtx

variable {σ : Type*}

/-- `VcdCtx::New` -/
def create (mode : Mode) (x : σ) : NativeCtx σ where
  ctx := .create x
  coderHandles := coderConstructor mode

/-- The handles that are held. -/
def held (n : NativeCtx σ) : List Persistent :=
  (if n.ctx.inBuffer.isSome then [.inBuffer] else []) ++ n.coderHandles

/-- Go on with `ctx`; the destructor runs when the coder is gone. -/
def update (ctx : VcdCtx σ) (n : NativeCtx σ) : NativeCtx σ :=
  { n with
    ctx
    coderHandles :=
      if n.ctx.coder.isSome && ctx.coder.isNone then coderDestructor n.coderHandles
      else n.coderHandles }

/-- `CheckError`, `SendError` up to its `MakeCallback`, and `FinishWrite`: how both versions
of a write go on once `Process` has run. -/
def checkError (async : Bool) (n : NativeCtx σ) : NativeCtx σ :=
  if n.ctx.hasError then { n with callees := .onerror :: n.callees }
  else
    { n.update n.ctx.finishWrite.1 with
      callees := if async then .callback :: n.callees else n.callees }

inductive Act where
  | writeAsync (data : Buffer) (isLast : Bool)
  | writeSync (data : Buffer) (isLast : Bool)
  | work
  | afterShim
  | close
  /-- the callee of `MakeCallback` returns -/
  | ret
  deriving DecidableEq, Repr

/-- One step; `none` when it is not possible, or aborts the process. -/
def step (K : Coder σ) (n : NativeCtx σ) (a : Act) : Option (NativeCtx σ) :=
  match a with
  | .writeAsync data isLast => (n.ctx.writeAsync data isLast).toOption.map fun c => n.update c
  | .writeSync data isLast => do
    let c ← (n.ctx.beginWrite data).toOption
    let p ← (c.process K data isLast).toOption
    some ((n.update p.1).checkError false)
  | .work =>
    match n.ctx.workReq with
    | some w =>
      if n.ctx.workDone then none
      else (n.ctx.processShim K w).toOption.map fun p => n.update p.1
    | none => none
  | .afterShim =>
    if n.callees.isEmpty && n.ctx.workReq.isSome && n.ctx.workDone then
      some ({ n with ctx.workReq := none }.checkError true)
    else none
  | .close => some (n.update n.ctx.close)
  | .ret =>
    match n.callees with
    | .onerror :: rest => some ({ n with callees := rest }.update n.ctx.afterOnerror)
    | .callback :: rest => some ({ n with callees := rest }.update n.ctx.afterCallback)
    | [] => none

/-- What a write and a coder held is given back. -/
structure Tidy (n : NativeCtx σ) : Prop where
  inBuffer : n.ctx.inBuffer.isSome ↔ n.ctx.writeInProgress = true
  output : n.ctx.writeInProgress = false → n.ctx.outputBuffer = []
  destroyed : n.ctx.coder = none → n.ctx.writeInProgress = false → n.held = []

/-- No failed write is left behind, and the coder is not destroyed. -/
def Act.keepsCoder (n : NativeCtx σ) : Act → Prop
  | .close => n.ctx.writeInProgress = true
  | .ret => n.callees.head? ≠ some .onerror ∧
      (n.ctx.pendingClose = true → n.ctx.writeInProgress = true)
  | _ => True

instance (n : NativeCtx σ) (a : Act) : Decidable (a.keepsCoder n) :=
  match a with
  | .close => inferInstanceAs (Decidable (n.ctx.writeInProgress = true))
  | .ret => inferInstanceAs (Decidable (_ ∧ _))
  | .writeAsync _ _ | .writeSync _ _ | .work | .afterShim => .isTrue trivial

variable {K : Coder σ} {n n' : NativeCtx σ} {c c' : VcdCtx σ} {mode : Mode} {x : σ}

/-! ## Running `Process` -/

/-- The write in progress goes on, with its buffer, its request and its coder. -/
def Continues (c c' : VcdCtx σ) : Prop :=
  c'.inBuffer = c.inBuffer ∧ c'.writeInProgress = c.writeInProgress ∧ c'.workReq = c.workReq ∧
    c'.coder.isSome

theorem stage_continues {want : State} {f : VcdCtx σ → σ → VcdCtx σ × List Call}
    {p : VcdCtx σ × List Call} (h : Continues c p.1) (hf : ∀ c y, Continues c (f c y).1) :
    Continues c (VcdCtx.stage want f p).1 := by
  unfold VcdCtx.stage
  split
  · exact h
  · next y hy =>
    split
    · obtain ⟨h1, h2, h3, -⟩ := h
      obtain ⟨e1, e2, e3, e4⟩ := hf p.1 y
      exact ⟨e1.trans h1, e2.trans h2, e3.trans h3, e4⟩
    · exact h

theorem process_continues {data : Buffer} {isLast : Bool} {p : VcdCtx σ × List Call}
    (h : c.process K data isLast = .ok p) : c.coder.isSome ∧ Continues c p.1 := by
  unfold VcdCtx.process at h
  split at h
  · cases h
  · next hc =>
    have hsome : c.coder.isSome := by
      rw [Option.isSome_iff_ne_none]
      exact fun hn => hc (by rw [hn]; rfl)
    split at h
    · cases h
    · obtain rfl := Except.ok.inj h
      refine ⟨hsome, ?_⟩
      have hidle : Continues c (VcdCtx.stage .idle (VcdCtx.processIdle K) (c, [])).1 :=
        stage_continues ⟨rfl, rfl, rfl, hsome⟩ fun _ _ => ⟨rfl, rfl, rfl, rfl⟩
      have hdata : Continues c (VcdCtx.stage .processing
          (fun c x => VcdCtx.processData K c x data isLast) _).1 :=
        stage_continues hidle fun _ _ => ⟨rfl, rfl, rfl, rfl⟩
      exact stage_continues hdata fun _ _ => ⟨rfl, rfl, rfl, rfl⟩

theorem beginWrite_eq {data : Buffer} (h : (c.beginWrite data).toOption = some c') :
    c' = { c with writeInProgress := true, inBuffer := some data } ∧ c.coder.isSome ∧
      c.writeInProgress = false := by
  unfold VcdCtx.beginWrite at h
  split at h
  · cases h
  · next hc =>
    split at h
    · cases h
    · next hw =>
      split at h
      · cases h
      · refine ⟨(Option.some.inj h).symm, ?_, by simpa using hw⟩
        rw [Option.isSome_iff_ne_none]
        exact fun hn => hc (by rw [hn]; rfl)

/-! ## The invariant -/

/-- What every caller finds. -/
structure Sane (n : NativeCtx σ) : Prop where
  request : n.ctx.workReq.isSome → n.ctx.writeInProgress = true
  buffer : n.ctx.writeInProgress = true → n.ctx.inBuffer.isSome
  coder : n.ctx.writeInProgress = true → n.ctx.coder.isSome
  onerror : .onerror ∈ n.callees → n.ctx.writeInProgress = true ∧ n.ctx.workReq = none
  nested : .onerror ∉ n.callees.tail
  handles : n.coderHandles ≠ []

theorem Sane.create : (create mode x).Sane := by
  constructor <;> simp [NativeCtx.create, VcdCtx.create]
  cases mode <;> simp [coderConstructor]

/-- A tidy context still has its coder. -/
theorem Sane.alive (h : n.Sane) (ht : n.Tidy) : n.ctx.coder.isSome := by
  by_contra hno
  have hnone : n.ctx.coder = none := Option.not_isSome_iff_eq_none.mp hno
  have hw : n.ctx.writeInProgress = false := by
    by_contra hw
    exact hno (h.coder (Bool.not_eq_false _ ▸ hw))
  have hheld := ht.destroyed hnone hw
  simp only [held, List.append_eq_nil_iff] at hheld
  exact h.handles hheld.2

theorem update_self : n.update n.ctx = n := by
  simp only [update, Option.isNone_iff_eq_none, Bool.and_eq_true]
  rw [if_neg]
  rintro ⟨hs, hn⟩
  rw [hn] at hs
  cases hs

theorem update_handles (hn : n.coderHandles ≠ []) : (n.update c).coderHandles ≠ [] := by
  simp only [update, coderDestructor, ite_self]
  exact hn

/-- Without a coder nothing is tidy. -/
theorem not_tidy (hh : n.coderHandles ≠ []) (hc : n.ctx.coder = none)
    (hw : n.ctx.writeInProgress = false) : ¬ n.Tidy := by
  intro h
  have hheld := h.destroyed hc hw
  simp only [held, List.append_eq_nil_iff] at hheld
  exact hh hheld.2

/-- A context in the middle of a write is tidy. -/
theorem tidy_inProgress (hw : n.ctx.writeInProgress = true) (hb : n.ctx.inBuffer.isSome) :
    n.Tidy where
  inBuffer := iff_of_true hb hw
  output := fun hno => absurd (hw.symm.trans hno) (by simp)
  destroyed := fun _ hno => absurd (hw.symm.trans hno) (by simp)

/-- A context in the middle of a write that has been processed. -/
structure Processed (n : NativeCtx σ) : Prop where
  request : n.ctx.workReq = none
  inProgress : n.ctx.writeInProgress = true
  buffer : n.ctx.inBuffer.isSome
  coder : n.ctx.coder.isSome
  onerror : .onerror ∉ n.callees
  handles : n.coderHandles ≠ []

theorem Processed.checkError (h : n.Processed) (async : Bool) :
    (n.checkError async).Sane ∧ (n.checkError async).Tidy := by
  have hnested : .onerror ∉ n.callees.tail := fun hm => h.onerror (List.mem_of_mem_tail hm)
  unfold NativeCtx.checkError
  split
  · exact ⟨⟨fun _ => h.inProgress, fun _ => h.buffer, fun _ => h.coder,
      fun _ => ⟨h.inProgress, h.request⟩, h.onerror, h.handles⟩,
      tidy_inProgress h.inProgress h.buffer⟩
  · refine ⟨⟨?_, ?_, ?_, ?_, ?_, update_handles h.handles⟩, ⟨?_, ?_, ?_⟩⟩
    · intro hw
      have : n.ctx.workReq.isSome := hw
      rw [h.request] at this
      cases this
    · exact fun hw => by cases hw
    · exact fun hw => by cases hw
    · intro hm
      cases async with
      | false => exact absurd hm h.onerror
      | true => exact absurd ((List.mem_cons.mp hm).resolve_left (by simp)) h.onerror
    · cases async with
      | false => exact hnested
      | true => exact h.onerror
    · exact iff_of_false (by simp [update, VcdCtx.finishWrite]) (by simp [update, VcdCtx.finishWrite])
    · exact fun _ => rfl
    · intro hnone
      exact absurd (hnone : n.ctx.coder = none) (Option.isSome_iff_ne_none.mp h.coder)

/-- A write that begins finds everything given back. -/
theorem Sane.begin {data : Buffer} (h : n.Sane) (hb : (n.ctx.beginWrite data).toOption = some c) :
    c.writeInProgress = true ∧ c.inBuffer.isSome ∧ c.workReq = none ∧ .onerror ∉ n.callees := by
  obtain ⟨rfl, -, hw⟩ := beginWrite_eq hb
  refine ⟨rfl, rfl, ?_, fun hm => ?_⟩
  · by_contra hne
    have := h.request (Option.isSome_iff_ne_none.mpr hne)
    rw [hw] at this
    cases this
  · have := (h.onerror hm).1
    rw [hw] at this
    cases this

theorem Sane.write (h : n.Sane) {data : Buffer} {isLast : Bool}
    (hc : (n.ctx.writeAsync data isLast).toOption = some c) :
    (n.update c).Sane ∧ (n.update c).Tidy := by
  unfold VcdCtx.writeAsync at hc
  cases hb : n.ctx.beginWrite data with
  | error e => rw [hb] at hc; cases hc
  | ok c₀ =>
    rw [hb] at hc
    obtain rfl := Option.some.inj hc
    have hb' : (n.ctx.beginWrite data).toOption = some c₀ := by rw [hb]; rfl
    obtain ⟨hw, hbuf, -, hno⟩ := h.begin hb'
    have hcoder : c₀.coder.isSome := by
      obtain ⟨rfl, hcoder, -⟩ := beginWrite_eq hb'
      exact hcoder
    exact ⟨⟨fun _ => hw, fun _ => hbuf, fun _ => hcoder, fun hm => absurd hm hno, h.nested,
      update_handles h.handles⟩, tidy_inProgress hw hbuf⟩

theorem Sane.writeSync (h : n.Sane) {data : Buffer} {isLast : Bool} {p : VcdCtx σ × List Call}
    (hb : (n.ctx.beginWrite data).toOption = some c) (hp : c.process K data isLast = .ok p) :
    (n.update p.1).Processed := by
  obtain ⟨hw, hbuf, hreq, hno⟩ := h.begin hb
  obtain ⟨-, h1, h2, h3, h4⟩ := process_continues hp
  exact ⟨h3.trans hreq, h2.trans hw, by rw [← h1] at hbuf; exact hbuf, h4, hno,
    update_handles h.handles⟩

theorem Sane.work (h : n.Sane) {w : WorkData} {p : VcdCtx σ × List Call}
    (hw : n.ctx.workReq = some w) (hp : n.ctx.processShim K w = .ok p) :
    (n.update p.1).Sane ∧ (n.update p.1).Tidy := by
  unfold VcdCtx.processShim at hp
  cases hq : n.ctx.process K w.data w.isLast with
  | error e => rw [hq] at hp; cases hp
  | ok q =>
    rw [hq] at hp
    obtain rfl := Except.ok.inj hp
    obtain ⟨-, h1, h2, h3, h4⟩ := process_continues hq
    have hwip : n.ctx.writeInProgress = true := h.request (by rw [hw]; rfl)
    have hw' : q.1.writeInProgress = true := h2.trans hwip
    have hbuf : q.1.inBuffer.isSome := by rw [h1]; exact h.buffer hwip
    have hno : .onerror ∉ n.callees := fun hm => by
      have hnone := (h.onerror hm).2
      rw [hw] at hnone
      cases hnone
    exact ⟨⟨fun _ => hw', fun _ => hbuf, fun _ => h4, fun hm => absurd hm hno, h.nested,
      update_handles h.handles⟩, tidy_inProgress hw' hbuf⟩

/-- `Close` waits for the write in progress, or destroys the coder. -/
theorem Sane.close (h : n.Sane) : (n.update n.ctx.close).Sane ∧
    ((n.update n.ctx.close).Tidy ↔ n.ctx.writeInProgress = true) := by
  unfold VcdCtx.close
  split
  · next hw =>
    exact ⟨⟨fun _ => hw, fun _ => h.buffer hw, fun _ => h.coder hw, h.onerror, h.nested,
      update_handles h.handles⟩, iff_of_true (tidy_inProgress hw (h.buffer hw)) hw⟩
  · next hw =>
    have hreq : n.ctx.workReq = none := by
      by_contra hne
      exact hw (h.request (Option.isSome_iff_ne_none.mpr hne))
    refine ⟨⟨fun hr => ?_, fun hw' => (by cases hw'), fun hw' => (by cases hw'),
      fun hm => absurd (h.onerror hm).1 hw, h.nested, update_handles h.handles⟩,
      iff_of_false (not_tidy (update_handles h.handles) rfl rfl) hw⟩
    rw [show (n.update n.ctx.reset).ctx.workReq = n.ctx.workReq from rfl, hreq] at hr
    cases hr

/-- `SendError` returns: the write is over, and its buffer is still held. -/
theorem Sane.sendError (h : n.Sane) {rest : List Callee} (hcall : n.callees = .onerror :: rest) :
    ({ n with callees := rest }.update n.ctx.afterOnerror).Sane ∧
      (({ n with callees := rest }.update n.ctx.afterOnerror).Tidy ↔ Act.ret.keepsCoder n) := by
  obtain ⟨hw, hreq⟩ := h.onerror (by rw [hcall]; exact List.mem_cons_self)
  have hno : .onerror ∉ rest := by
    have := h.nested
    rwa [hcall] at this
  have h1 : n.ctx.afterOnerror.writeInProgress = false := by
    simp only [VcdCtx.afterOnerror, VcdCtx.close, VcdCtx.reset]
    split <;> rfl
  have hx := VcdCtx.sameWork_afterOnerror n.ctx
  refine ⟨⟨fun hr => ?_, fun hw' => ?_, fun hw' => ?_, fun hm => absurd hm hno,
    fun hm => hno (List.mem_of_mem_tail hm), update_handles h.handles⟩,
    iff_of_false (fun ht => ?_) fun hk => hk.1 (by simp [hcall])⟩
  · have hr' : n.ctx.afterOnerror.workReq.isSome := hr
    rw [hx.workReq, hreq] at hr'
    cases hr'
  · exact absurd (h1.symm.trans hw') (by simp)
  · exact absurd (h1.symm.trans hw') (by simp)
  · have hbuf : n.ctx.afterOnerror.inBuffer.isSome := by rw [hx.inBuffer]; exact h.buffer hw
    exact absurd (h1.symm.trans (ht.inBuffer.mp hbuf)) (by simp)

/-- What a step leads to: a tidy context exactly when it keeps the coder. -/
theorem Sane.step {a : Act} (h : n.Sane) (ht : n.Tidy) (hs : n.step K a = some n') :
    n'.Sane ∧ (n'.Tidy ↔ a.keepsCoder n) := by
  cases a with
  | writeAsync data isLast =>
    obtain ⟨c, hc, rfl⟩ := Option.map_eq_some_iff.mp hs
    exact (h.write hc).imp_right fun ht' => iff_of_true ht' trivial
  | writeSync data isLast =>
    obtain ⟨c, hc, hs⟩ := Option.bind_eq_some_iff.mp hs
    obtain ⟨p, hp, hs⟩ := Option.bind_eq_some_iff.mp hs
    obtain rfl := Option.some.inj hs
    cases hq : c.process K data isLast with
    | error e => rw [hq] at hp; cases hp
    | ok q =>
      rw [hq] at hp
      obtain rfl := Option.some.inj hp
      exact ((h.writeSync hc hq).checkError false).imp_right fun ht' => iff_of_true ht' trivial
  | work =>
    simp only [NativeCtx.step] at hs
    split at hs
    · next w hw =>
      split at hs
      · cases hs
      · cases hq : n.ctx.processShim K w with
        | error e => rw [hq] at hs; cases hs
        | ok q =>
          rw [hq] at hs
          obtain rfl := Option.some.inj hs
          exact (h.work hw hq).imp_right fun ht' => iff_of_true ht' trivial
    · cases hs
  | afterShim =>
    simp only [NativeCtx.step] at hs
    split at hs
    · next hc =>
      simp only [Bool.and_eq_true, List.isEmpty_iff] at hc
      obtain rfl := Option.some.inj hs
      have hw := h.request hc.1.2
      have hp : ({ n with ctx.workReq := none } : NativeCtx σ).Processed :=
        ⟨rfl, hw, h.buffer hw, h.coder hw, by simp [hc.1.1], h.handles⟩
      exact (hp.checkError true).imp_right fun ht' => iff_of_true ht' trivial
    · cases hs
  | close =>
    obtain rfl := Option.some.inj hs
    exact h.close
  | ret =>
    simp only [NativeCtx.step] at hs
    split at hs
    · next rest hcall =>
      obtain rfl := Option.some.inj hs
      exact h.sendError hcall
    · next rest hcall =>
      obtain rfl := Option.some.inj hs
      have hno : .onerror ∉ rest := by
        have := h.nested
        rwa [hcall] at this
      have h' : ({ n with callees := rest } : NativeCtx σ).Sane :=
        ⟨h.request, h.buffer, h.coder, fun hm => absurd hm hno,
          fun hm => hno (List.mem_of_mem_tail hm), h.handles⟩
      unfold VcdCtx.afterCallback
      split
      · next hp =>
        refine h'.close.imp_right fun hiff => hiff.trans ⟨fun hw => ?_, fun hk => hk.2 hp⟩
        exact ⟨by simp [hcall], fun _ => hw⟩
      · next hp =>
        have hself := update_self (n := { n with callees := rest })
        rw [hself]
        exact ⟨h', iff_of_true ⟨ht.inBuffer, ht.output, ht.destroyed⟩
          ⟨by simp [hcall], fun hp' => absurd hp' hp⟩⟩
    · cases hs

/-! ## What is given back -/

/-- As long as no write fails and the coder is not destroyed, everything a write held is given
back; each of the two leaves a handle behind. -/
theorem handles_given_back
    (hr : Reaches (step K) (fun n a => a.keepsCoder n) (create mode x) n) :
    n.Tidy ∧ ∀ a n', n.step K a = some n' → (n'.Tidy ↔ a.keepsCoder n) := by
  have h : n.Sane ∧ n.Tidy := by
    induction hr with
    | refl => exact ⟨.create, by constructor <;> simp [NativeCtx.create, VcdCtx.create]⟩
    | tail _ hk hs ih => exact (ih.1.step ih.2 hs).imp_right fun hiff => hiff.mpr hk
  exact ⟨h.2, fun a n' hs => (h.1.step h.2 hs).2⟩

open Engine (copyCoder brokenCoder)

/-- Two writes, one of them closed under before it completes. -/
theorem handles_given_back_copy : ∃ n, Reaches (step copyCoder) (fun n a => a.keepsCoder n)
      (create .encode ()) n ∧ n.ctx.pendingClose = true ∧ n.Tidy := by
  have hrun : ∃ n, Reaches (step copyCoder) (fun n a => a.keepsCoder n) (create .encode ()) n ∧
      n.ctx.pendingClose = true :=
    Transition.exists_reaches [.writeSync [1] false, .writeAsync [2] true, .close, .work, .afterShim]
      (by decide +kernel)
  obtain ⟨n, hn, hp⟩ := hrun
  exact ⟨n, hn, hp, (handles_given_back hn).1⟩

/-- A failed write keeps its buffer and its output, a destroyed coder its dictionary. -/
theorem handles_leak :
    (∃ n, Reaches (step brokenCoder) anyStep (create .decode ()) n ∧
      n.ctx.writeInProgress = false ∧ n.held = [.inBuffer, .dictionaryHandle] ∧ ¬ n.Tidy) ∧
    ∃ n, Reaches (step copyCoder) anyStep (create .encode ()) n ∧ n.ctx.coder = none ∧
      n.ctx.writeInProgress = false ∧ n.held = [.hashedDictionary] ∧ ¬ n.Tidy := by
  have hfail : ∃ n, Reaches (step brokenCoder) anyStep (create .decode ()) n ∧
      n.ctx.writeInProgress = false ∧ n.held = [.inBuffer, .dictionaryHandle] ∧
      n.ctx.inBuffer.isSome :=
    Transition.exists_reaches [.writeAsync [1] false, .work, .afterShim, .ret] (by decide +kernel)
  have hclose : ∃ n, Reaches (step copyCoder) anyStep (create .encode ()) n ∧
      n.ctx.coder = none ∧ n.ctx.writeInProgress = false ∧ n.held = [.hashedDictionary] :=
    Transition.exists_reaches [.writeSync [1] true, .close] (by decide +kernel)
  obtain ⟨n, hn, hw, hh, hb⟩ := hfail
  obtain ⟨m, hm, hc, hw', hh'⟩ := hclose
  refine ⟨⟨n, hn, hw, hh, fun ht => ?_⟩, m, hm, hc, hw', hh', fun ht => ?_⟩
  · exact absurd (hw.symm.trans (ht.inBuffer.mp hb)) (by simp)
  · have := ht.destroyed hc hw'
    rw [hh'] at this
    cases this

end NativeCtx

end NodeVcdiff
