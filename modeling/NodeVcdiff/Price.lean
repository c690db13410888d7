import NodeVcdiff.Safety

/-!
# The price of what is under way

Every stage of every chunk has a price. Each step that the stream takes without its user
finishes a chunk or lowers the sum of the prices.
-/

namespace NodeVcdiff

variable {σ : Type*} {K : Coder σ}

/-- The chunks and flushes that a frame still stands for. -/
def Frame.pending : Frame → ℕ
  | .afterWrite _ _ => 1
  | .drain listeners => listeners.length
  | _ => 0

def Frame.price : Frame → ℕ
  | .user | .clearBuffer | .ended | .afterShim | .sendError => 1
  | .drain listeners => 1 + 12 * listeners.length
  | .writeCb _ => 4
  | .finishMaybe | .emitError _ => 2
  | .endListeners ids => 1 + 2 * ids.length
  | .cb _ | .afterWrite _ _ => 0

def Tick.price : Tick → ℕ
  | .transformCb _ => 0
  | _ => 2

/-- The price of what the current call still has to go through. -/
def Core.stage (c : Core σ) : ℕ :=
  if c.calling.isSome then 8
  else if c.after + c.done ≠ 0 then 2
  else match c.ctx.workReq with
    | some _ => if c.ctx.workDone then 6 else 7
    | none => if c.writing.isSome && !c.transforming then 9 else 0

namespace Engine

variable {s s' : Engine σ}

/-- The chunks and flushes not done yet. -/
def pending (s : Engine σ) : ℕ :=
  s.ws.bufferedRequest.length + s.ws.writing.toList.length + (s.stack.map Frame.pending).sum +
    s.drainListeners.length

/-- The price of everything that is under way. -/
def price (s : Engine σ) : ℕ :=
  s.core.stage + 10 * s.ws.bufferedRequest.length + cond s.ws.prefinished 0 9 +
    (s.stack.map Frame.price).sum + (s.ticks.map Tick.price).sum + 3 * s.endListeners.length +
    cond s.rs.endEmitted 0 5 + s.rs.buffer.length

/-- `s'` is nearer to rest. -/
def Nearer (s' s : Engine σ) : Prop :=
  s'.pending < s.pending ∨ s'.pending = s.pending ∧ s'.price < s.price

/-! ## Stages -/

theorem stage_called {c : Core σ} {call : Calling} (h : c.At (.called call)) : c.stage = 8 := by
  simp [Core.stage, h.1]

theorem stage_parked {c : Core σ} {k : TransformCb} (h : c.At (.parked k)) : c.stage = 2 := by
  obtain ⟨h1, h2, h3, -⟩ := h
  cases k <;> simp [Core.stage, h1, h2, h3]

theorem stage_native {c : Core σ} {k : TransformCb} (h : c.At (.native k)) :
    c.stage = if c.ctx.workDone then 6 else 7 := by
  obtain ⟨h1, h2, h3, h4, -⟩ := h
  obtain ⟨w, hw⟩ := Option.isSome_iff_exists.mp h4
  simp [Core.stage, h1, h2, h3, hw]

/-- No callback waits and no chunk waits to be started. -/
theorem stage_zero {c : Core σ} (hc : c.calling = none) (hf : c.Free)
    (hw : c.writing.isSome = true → c.transforming = true) : c.stage = 0 := by
  simp only [Core.stage, hc, hf.after, hf.done, hf.workReq]
  cases hs : c.writing.isSome with
  | false => simp
  | true => simp [hw hs]

theorem stage_congr {c c' : Core σ} (h1 : c'.calling = c.calling) (h2 : c'.after = c.after)
    (h3 : c'.done = c.done) (h4 : c'.ctx.workReq = c.ctx.workReq)
    (h4' : c'.ctx.workDone = c.ctx.workDone) (h5 : c'.writing = c.writing)
    (h6 : c'.transforming = c.transforming) : c'.stage = c.stage := by
  simp only [Core.stage, h1, h2, h3, h4, h4', h5, h6]

/-- The callback of a call is underway: the call has started. -/
theorem stage_le {c : Core σ} (hc : c.calling = none)
    (h : c.after + c.done ≠ 0 ∨ c.ctx.workReq.isSome = true) : c.stage ≤ 7 := by
  unfold Core.stage
  rw [if_neg (by simp [hc])]
  split
  · omega
  · next h0 =>
    obtain ⟨w, hw⟩ := Option.isSome_iff_exists.mp (h.resolve_left h0)
    rw [hw]
    cases c.ctx.workDone <;> simp

/-! ## What the methods cost -/

theorem price_emit (e : Event) :
    (s.emit e).price = s.price + 1 ∧ (s.emit e).pending = s.pending := by
  have hstage : (s.emit e).core.stage = s.core.stage := by
    cases h : e.isFlow with
    | false => rw [core_emit h]
    | true => rw [core_emit_flow h]; rfl
  constructor
  · simp only [price, hstage]
    simp [emit, Frame.price]
    omega
  · simp [pending, emit, Frame.pending]

theorem price_callUser (callback : Option ℕ) (ok : Bool) :
    (s.callUser callback ok).price = s.price + 1 ∧
      (s.callUser callback ok).pending = s.pending := by
  have hstage : (s.callUser callback ok).core.stage = s.core.stage := by rw [core_callUser]
  cases callback with
  | some id => exact price_emit _
  | none =>
    constructor
    · simp only [price, hstage]
      simp [callUser, Frame.price]
      omega
    · simp [pending, callUser, Frame.pending]

theorem price_nextTick {t : Tick} (ht : ∀ k, t ≠ .transformCb k) :
    (s.nextTick t).price = s.price + 2 ∧ (s.nextTick t).pending = s.pending := by
  have hstage : (s.nextTick t).core.stage = s.core.stage := by rw [core_nextTick ht]
  have hp : t.price = 2 := by
    cases t with
    | transformCb k => exact absurd rfl (ht k)
    | _ => rfl
  constructor
  · simp only [price, hstage]
    simp [nextTick, hp]
    omega
  · rfl

theorem price_pop {f : Frame} {fs : List Frame} (hs : s.stack = f :: fs)
    (hf : ∀ k, f ≠ .cb k) :
    ({ s with stack := fs } : Engine σ).price + f.price = s.price ∧
      ({ s with stack := fs } : Engine σ).pending + f.pending = s.pending := by
  have hstage : ({ s with stack := fs } : Engine σ).core.stage = s.core.stage := by
    refine stage_congr rfl ?_ ?_ rfl rfl rfl rfl <;> simp [core, hs, hf]
  constructor
  · simp only [price, hstage]
    simp [hs]
    omega
  · simp [pending, hs]
    omega

theorem price_push {f : Frame} (hf : ∀ k, f ≠ .cb k) :
    ({ s with stack := f :: s.stack } : Engine σ).price = s.price + f.price ∧
      ({ s with stack := f :: s.stack } : Engine σ).pending = s.pending + f.pending := by
  have := price_pop (s := { s with stack := f :: s.stack }) rfl hf
  exact ⟨this.1.symm, this.2.symm⟩

/-- A chunk accepted where no call is in progress, or behind a current chunk. -/
theorem price_writeOrBuffer (req : WriteReq)
    (hst : s.ws.writing = none → s.core.stage = 0 ∧ s.calling = none) :
    (s.writeOrBuffer req).price ≤ s.price + 10 ∧
      (s.writeOrBuffer req).pending = s.pending + 1 := by
  cases hw : s.ws.writing with
  | some r =>
    have hstage : (s.writeOrBuffer req).core.stage = s.core.stage := by
      rw [core_writeOrBuffer]
      refine stage_congr ?_ ?_ ?_ ?_ ?_ ?_ ?_ <;>
        simp [Core.accept, show s.core.writing = some r from hw]
    constructor
    · simp only [price, hstage]
      simp [writeOrBuffer, hw]
      omega
    · simp [pending, writeOrBuffer, hw]
      omega
  | none =>
    have hstage : (s.writeOrBuffer req).core.stage ≤ 9 := by
      unfold Core.stage
      split
      · omega
      · split
        · omega
        · split
          · split <;> omega
          · split <;> omega
    constructor
    · simp only [price, (hst hw).1]
      have hrest : (s.writeOrBuffer req).ws.bufferedRequest = s.ws.bufferedRequest ∧
          (s.writeOrBuffer req).ws.prefinished = s.ws.prefinished ∧
          (s.writeOrBuffer req).stack = s.stack ∧ (s.writeOrBuffer req).ticks = s.ticks ∧
          (s.writeOrBuffer req).endListeners = s.endListeners ∧
          (s.writeOrBuffer req).rs = s.rs := by
        simp [writeOrBuffer, hw, doWrite]
      obtain ⟨r1, r2, r3, r4, r5, r6⟩ := hrest
      rw [r1, r2, r3, r4, r5, r6]
      omega
    · simp [pending, writeOrBuffer, hw, doWrite]
      omega

/-- Nothing but the flag changes. -/
theorem price_forceFlush (b : Bool) : ({ s with vcd.forceFlush := b } : Engine σ).price = s.price ∧
    ({ s with vcd.forceFlush := b } : Engine σ).pending = s.pending := ⟨rfl, rfl⟩

theorem price_flush (callback : Option ℕ)
    (hst : s.ws.ending = false → s.ws.writing = none → s.core.stage = 0 ∧ s.calling = none) :
    (s.flush callback).price ≤ s.price + 10 ∧ (s.flush callback).pending ≤ s.pending + 1 := by
  unfold flush
  split
  · cases callback with
    | some id =>
      obtain ⟨h1, h2⟩ := price_nextTick (s := s) (t := .flushCb id) (by simp)
      dsimp only
      omega
    | none => exact ⟨Nat.le_add_right _ _, Nat.le_add_right _ _⟩
  · next hd =>
    split
    · split
      · constructor
        · simp only [price, List.length_append, List.length_singleton]
          have : ∀ es, ({ s with endListeners := es } : Engine σ).core.stage = s.core.stage :=
            fun _ => rfl
          rw [this]
          omega
        · exact Nat.le_succ _
      · omega
    · next he =>
      split
      · constructor
        · exact Nat.le_add_right _ _
        · simp only [pending, List.length_append, List.length_singleton]
          omega
      · unfold write
        rw [if_neg he]
        obtain ⟨h1, h2⟩ := price_writeOrBuffer (s := { s with vcd.forceFlush := true })
          ⟨[], callback⟩ (hst (Bool.eq_false_iff.mpr he))
        obtain ⟨h3, h4⟩ := price_forceFlush (s := s) true
        omega

theorem price_close : s.core.close.stage = s.core.stage ∧ (s.close none).price ≤ s.price + 2 ∧
    (s.close none).pending = s.pending := by
  have hx := VcdCtx.sameWork_close s.ctx
  have hstage : s.core.close.stage = s.core.stage := by
    unfold Core.close
    dsimp only
    split
    · rfl
    · split
      · exact stage_congr rfl rfl rfl hx.workReq hx.workDone rfl rfl
      · rfl
  refine ⟨hstage, ?_, ?_⟩
  · have h : (s.close none).core.stage = s.core.stage := by rw [core_close, hstage]
    simp only [price, h]
    cases hc : s.vcd.closed <;> cases hh : s.vcd.handle <;>
      simp [close, hc, hh, note, nextTick, Tick.price]
    omega
  · cases hc : s.vcd.closed <;> cases hh : s.vcd.handle <;>
      simp [close, hc, hh, note, nextTick, pending]

/-! ## Every step leads nearer to rest -/

theorem nearer_of_le (h1 : s'.pending ≤ s.pending) (h2 : s'.price < s.price) : Nearer s' s := by
  rcases Nat.lt_or_eq_of_le h1 with h | h
  · exact .inl h
  · exact .inr ⟨h, h2⟩

/-- What is under way apart from the current call. -/
def around (s : Engine σ) : ℕ :=
  10 * s.ws.bufferedRequest.length + cond s.ws.prefinished 0 9 +
    (s.stack.map Frame.price).sum + (s.ticks.map Tick.price).sum + 3 * s.endListeners.length +
    cond s.rs.endEmitted 0 5 + s.rs.buffer.length

theorem price_eq : s.price = s.core.stage + s.around := by
  simp only [price, around]
  omega

/-- The end of a write leaves the price alone. -/
theorem price_ctx {ctx : VcdCtx σ} (h : s.ctx.SameWork ctx) :
    ({ s with ctx } : Engine σ).price = s.price ∧
      ({ s with ctx } : Engine σ).pending = s.pending := by
  have hstage : ({ s with ctx } : Engine σ).core.stage = s.core.stage :=
    stage_congr rfl rfl rfl h.workReq h.workDone rfl rfl
  refine ⟨?_, rfl⟩
  rw [price_eq, price_eq, hstage]
  rfl

theorem around_onwrite {req : WriteReq} (hw : s.ws.writing = some req) (sync : Bool) :
    (s.onwrite none sync).around ≤ s.around + 1 ∧ (s.onwrite none sync).pending = s.pending := by
  unfold onwrite
  rw [hw]
  dsimp only
  split
  · constructor
    · simp [around, Frame.price]
      omega
    · simp [pending, hw, Frame.pending]
      omega
  · constructor
    · simp [around, Frame.price]
    · simp [pending, hw, Frame.pending]
      omega

/-- The waiting callback of the current call, taken from its place in `s`, is called. -/
theorem nearer_settle {t : Engine σ} {k : TransformCb} (hat : s.core.At (.parked k))
    (hf : s.core.Flags) (ht : t.core = s.core.unpark k) (ha : t.around = s.around)
    (hp : t.pending = s.pending) : Nearer (t.transformCb k none false) s := by
  have hcore : (t.transformCb k none false).core = (s.core.unpark k).transformCb k true := by
    rw [core_transformCb _ _ _ (by simp), ht]; rfl
  obtain ⟨h1, h2, h3, h4, -, -⟩ := hat.settle
  have hstage : (t.transformCb k none false).core.stage = 0 := by
    rw [hcore]
    refine stage_zero h1 h2 fun hw => ?_
    cases k with
    | afterTransform => simp [h4 rfl] at hw
    | done =>
      have hp : s.core.prefinished = true := hat.2.2.2.2.2.2.2.1
      rw [Core.settle_done] at hw
      simp [(hf.finished hp).2.1] at hw
  have hs : s.core.stage = 2 := stage_parked hat
  cases k with
  | done =>
    have hcost : (t.transformCb .done none false).around = t.around + 1 ∧
        (t.transformCb .done none false).pending = t.pending := by
      constructor
      · simp [transformCb, around, emit, note, Frame.price]; omega
      · simp [transformCb, pending, emit, note, Frame.pending]
    refine .inr ⟨by omega, ?_⟩
    rw [price_eq, price_eq]
    omega
  | afterTransform =>
    obtain ⟨req, hreq⟩ := Option.isSome_iff_exists.mp hat.2.2.2.2.2.2.2
    have hreq' : t.ws.writing = some req := by
      have : t.core.writing = s.core.writing := by rw [ht]; rfl
      exact this.trans hreq
    obtain ⟨c1, c2⟩ := around_onwrite (s := { t.note (.transformCb .afterTransform true) with
      ts.transforming := false }) hreq' false
    have hcost : (t.transformCb .afterTransform none false).around ≤ t.around + 1 ∧
        (t.transformCb .afterTransform none false).pending = t.pending := ⟨c1, c2⟩
    refine .inr ⟨by omega, ?_⟩
    rw [price_eq, price_eq]
    omega

theorem nearer_calling (h : s.Invariant) {c : Calling} (hc : s.calling = some c) :
    Nearer (s.runCalling c) s := by
  have hat : s.core.At (.called c) := h.sound.control.called hc
  have hs : s.core.stage = 8 := stage_called hat
  have hcore : (s.runCalling c).core = s.core.runCalling c s.vcd.forceFlush :=
    core_runCalling c h.shape.ended
  have heq := Core.runCalling_eq hat h.sound.control.flags s.vcd.forceFlush
  cases hcl : s.vcd.closed with
  | false =>
    rw [if_neg (by simp [show s.core.closed = false from hcl])] at heq
    have hstage : (s.runCalling c).core.stage ≤ 7 := by
      rw [hcore, heq]
      unfold Core.running
      dsimp only
      split
      · exact stage_le (by cases c <;> rfl) (.inr rfl)
      · exact stage_le (by cases c <;> rfl) (.inl (by cases c <;> simp [Core.park,
          Calling.callback]))
    obtain ⟨a1, a2, a3, a4, a5, a6⟩ := runCalling_aside c hcl
    have hticks : ((s.runCalling c).ticks.map Tick.price).sum = (s.ticks.map Tick.price).sum := by
      rcases a6 with h6 | ⟨k, h6⟩ <;> simp [h6, Tick.price]
    refine .inr ⟨by simp only [pending, a1, a2, a4], ?_⟩
    rw [price_eq, price_eq]
    simp only [around, a1, a2, a3, a5, hticks]
    omega
  | true =>
    cases c with
    | transform sync =>
      -- the chunk is gone
      obtain ⟨req, hreq⟩ := Option.isSome_iff_exists.mp hat.2.2.2.2.2
      left
      have hreq' : s.ws.writing = some req := hreq
      simp only [runCalling, hreq', transform, hcl, if_true, transformCb, onwrite, note]
      cases sync
      · cases req.callback <;>
          simp [pending, hreq', callUser, emit, Frame.pending]
      · simp [pending, hreq', emit, nextTick, Frame.pending]
    | flush =>
      rw [if_pos (show s.core.closed = true from hcl)] at heq
      have hp : s.core.prefinished = true := hat.2.2.2.2.2.1
      have hstage : (s.runCalling .flush).core.stage = 0 := by
        rw [hcore, heq]
        refine stage_zero rfl ⟨hat.2.1.after, hat.2.1.done, hat.2.1.workReq⟩ fun hw => ?_
        have hw' : s.core.writing.isSome = true := hw
        rw [(h.sound.control.flags.finished hp).2.1] at hw'
        cases hw'
      refine nearer_of_le ?_ ?_
      · simp [runCalling, flushRest, transform, hcl, transformCb, pending, emit, note,
          Frame.pending]
      · rw [price_eq, price_eq, hstage, hs]
        simp [runCalling, flushRest, transform, hcl, transformCb, around, emit, note, Frame.price]
        omega

theorem nearer_afterShim (h : s.Invariant) (hc : s.calling = none) (hst : s.stack = [])
    (hw : s.ctx.workReq.isSome) (hd : s.ctx.workDone = true) : Nearer s.afterShim s := by
  obtain ⟨k, hat⟩ := h.sound.control.native hw
  have hs : s.core.stage = 6 := by
    rw [stage_native hat, show s.core.ctx.workDone = true from hd]; rfl
  have hcore := core_afterShim (s := s) hat.2.2.2.2.2.1 (k := k) hat.2.2.2.2.1
  have hcc : s.core.calling = none := hc
  refine nearer_of_le ?_ ?_
  · unfold afterShim
    dsimp only
    split
    · simp [pending, onerror, emit, Frame.pending, hst]
    · rw [show s.req.callback = some k from hat.2.2.2.2.1]
      simp only [callback, show s.vcd.hadError = false from hat.2.2.2.2.2.1, Bool.false_eq_true,
        if_false]
      simp [pending, emit, Frame.pending, hst]
  · rw [price_eq, price_eq, hs, hcore]
    cases he : s.ctx.hasError with
    | true =>
      have hstage : s.core.report.stage = 0 := by
        refine stage_zero hcc ⟨hat.2.1, hat.2.2.1, rfl⟩ fun hws => ?_
        cases k with
        | afterTransform => exact hat.2.2.2.2.2.2.2.1
        | done =>
          have hws' : s.core.writing.isSome = true := hws
          rw [(h.sound.control.flags.finished hat.2.2.2.2.2.2.2.2.1).2.1] at hws'
          cases hws'
      rw [if_pos rfl, hstage]
      have : ({ s.ctx with workReq := none } : VcdCtx σ).hasError = true := he
      simp only [afterShim, this, if_true]
      simp [around, onerror, emit, Frame.price, hst]
      omega
    | false =>
      have hstage : (s.core.deliver k).stage ≤ 2 := by
        have ht : (s.core.deliver k).At (.parked k) := by
          obtain ⟨h1, h2, h3, h4, h5, h6, h7, h8⟩ := hat
          have herr : s.ctx.err = .ok := by simpa [VcdCtx.hasError] using he
          cases k
          · exact ⟨h1, by simp [Core.deliver, Core.park, Core.note, h2], h3, rfl, h6, herr, h8⟩
          · exact ⟨h1, h2, by simp [Core.deliver, Core.park, Core.note, h3], rfl, h6, herr, h8⟩
        rw [stage_parked ht]
      rw [if_neg (by simp)]
      have : ({ s.ctx with workReq := none } : VcdCtx σ).hasError = false := he
      simp only [afterShim, this, Bool.false_eq_true, if_false]
      rw [show s.req.callback = some k from hat.2.2.2.2.1]
      simp only [callback, show s.vcd.hadError = false from hat.2.2.2.2.2.1, Bool.false_eq_true,
        if_false]
      split
      · simp [around, emit, Frame.price, hst]
        omega
      · simp [around, emit, Frame.price, hst]
        omega

theorem nearer_emitEnd (he : s.rs.endEmitted = false) : Nearer s.emitEnd s := by
  have hn : ({ s with
      rs.endEmitted := true
      endListeners := []
      stack := .user :: .endListeners s.endListeners :: s.stack
      log := .endEvent :: s.log } : Engine σ).core = s.core.note .endEvent := by
    simp [core, Core.note, List.filter_cons, Event.isFlow]
  obtain ⟨-, h2, h3⟩ := price_close (s := { s with
    rs.endEmitted := true
    endListeners := []
    stack := .user :: .endListeners s.endListeners :: s.stack
    log := .endEvent :: s.log })
  refine nearer_of_le (Nat.le_of_eq (h3.trans ?_)) (Nat.lt_of_le_of_lt h2 ?_)
  · simp [pending, Frame.pending]
  · rw [price_eq, price_eq, hn]
    have : (s.core.note .endEvent).stage = s.core.stage := rfl
    simp [around, this, Frame.price, he]
    omega

/-- No call is due and no chunk is current before the stream finishes: nothing is under
way. -/
theorem Invariant.rest (h : s.Invariant) (hc : s.calling = none) (hw : s.ws.writing = none)
    (he : s.ws.ending = false) : s.core.stage = 0 := by
  have hp : s.core.prefinished = false := by
    by_contra hne
    have := (h.sound.control.flags.finished (by simpa using hne)).1
    rw [show s.core.ending = false from he] at this
    cases this
  obtain ⟨t, hat⟩ := h.sound.control.turn
  obtain ⟨h1, h2, -⟩ := hat.rest_of_writing hc hw hp
  exact stage_zero h1 h2 fun hs => by
    rw [show s.core.writing = none from hw] at hs
    cases hs

theorem nearer_clearBuffer {t : Engine σ} (ht : t.price + 1 = s.price)
    (hp : t.pending = s.pending) : Nearer (t.runFrame .clearBuffer) s := by
  simp only [runFrame]
  split
  · next req rest hw hq =>
    refine nearer_of_le (Nat.le_of_eq (Eq.trans ?_ hp)) ?_
    · simp [doWrite, pending, hw, hq, Frame.pending]
    · have hstage : ∀ c : Core σ, c.stage ≤ 9 := fun c => by
        unfold Core.stage
        split
        · omega
        · split
          · omega
          · split
            · split <;> omega
            · split <;> omega
      have hlt : ∀ u : Engine σ, u.around + 9 = t.around → u.price < s.price := fun u hu => by
        have := hstage u.core
        rw [price_eq] at ht ⊢
        omega
      refine hlt _ ?_
      simp [doWrite, around, hq, Frame.price]
      omega
  · have hlt : ∀ u : Engine σ, u.price = t.price → u.price < s.price := fun u hu => by omega
    exact nearer_of_le (Nat.le_of_eq hp) (hlt _ rfl)

theorem nearer_finishMaybe {t : Engine σ} (ht : t.price + 2 = s.price)
    (hp : t.pending = s.pending) : Nearer (t.runFrame .finishMaybe) s := by
  simp only [runFrame]
  split
  · refine nearer_of_le (Nat.le_of_eq (Eq.trans ?_ hp)) ?_
    · simp [pending, Frame.pending]
    · cases hpre : t.ws.prefinished with
      | true =>
        obtain ⟨h1, -⟩ := price_push (s := t) (f := .user) (by simp)
        simp only [if_true]
        have : ({ t with
            ws.prefinished := true, calling := t.calling, stack := .user :: t.stack } :
            Engine σ).price = ({ t with stack := .user :: t.stack } : Engine σ).price := by
          simp [price, hpre]
          rfl
        rw [this, h1]
        simp only [Frame.price]
        omega
      | false =>
        rw [price_eq] at ht ⊢
        simp only [Bool.false_eq_true, if_false]
        have hs : ({ t with
            ws.prefinished := true, calling := some .flush, stack := .user :: t.stack } :
            Engine σ).core.stage = 8 := by simp [Core.stage, core]
        rw [hs]
        simp [around, hpre, Frame.price] at ht ⊢
        omega
  · exact nearer_of_le (Nat.le_of_eq hp) (by omega)

theorem nearer_frame (h : s.Invariant) (hc : s.calling = none) {f : Frame} {fs : List Frame}
    (hst : s.stack = f :: fs) : Nearer (({ s with stack := fs } : Engine σ).runFrame f) s := by
  have hpop := fun hf => price_pop hst (f := f) hf
  -- a frame that is popped and replaced by cheaper ones
  have hless : ∀ t : Engine σ, t.price < s.price → t.pending ≤ s.pending → Nearer t s :=
    fun t h1 h2 => nearer_of_le h2 h1
  cases f with
  | cb k =>
    exact nearer_settle (h.sound.control.waits (parked_of_frame hst)) h.sound.control.flags (core_popCb hst)
      (by simp [around, hst, Frame.price]) (by simp [pending, hst, Frame.pending])
  | user =>
    obtain ⟨h1, h2⟩ := hpop (by simp)
    exact hless _ (by simp only [Frame.price] at h1; simp only [runFrame]; omega)
      (by simp only [runFrame]; omega)
  | clearBuffer =>
    obtain ⟨h1, h2⟩ := hpop (by simp)
    exact nearer_clearBuffer h1 h2
  | afterWrite finished callback =>
    obtain ⟨-, h2⟩ := hpop (by simp)
    simp only [Frame.pending] at h2
    left
    simp only [runFrame]
    split
    · simp [pending, Frame.pending] at h2 ⊢
      omega
    · simp [pending, Frame.pending] at h2 ⊢
      omega
  | drain listeners =>
    obtain ⟨h1, h2⟩ := hpop (by simp)
    cases listeners with
    | nil =>
      simp only [Frame.price, List.length_nil] at h1
      exact hless _ (show ({ s with stack := fs } : Engine σ).price < _ by omega)
        (show ({ s with stack := fs } : Engine σ).pending ≤ _ by omega)
    | cons callback rest =>
      simp only [Frame.price, Frame.pending, List.length_cons] at h1 h2
      set t : Engine σ := { s with stack := .user :: .drain rest :: fs } with ht
      have hcore : t.core = s.core := by
        rw [ht, core_push rfl, core_push rfl, core_pop hst rfl]
      obtain ⟨h3, h4⟩ := price_flush (s := t) callback fun he hw => by
        rw [hcore]
        exact ⟨h.rest hc hw he, hc⟩
      have h5 : t.price = ({ s with stack := fs } : Engine σ).price + (2 + 12 * rest.length) := by
        obtain ⟨a, -⟩ := price_push (s := ({ s with stack := fs } : Engine σ)) (f := .drain rest)
          (by simp)
        obtain ⟨b, -⟩ := price_push (s := ({ s with stack := .drain rest :: fs } : Engine σ))
          (f := .user) (by simp)
        rw [ht]
        simp only [Frame.price] at a b
        rw [b, a]
        omega
      have h6 : t.pending = ({ s with stack := fs } : Engine σ).pending + rest.length := by
        simp [ht, pending, Frame.pending]
        omega
      exact hless (t.flush callback) (by omega) (by omega)
  | writeCb callback =>
    obtain ⟨h1, h2⟩ := hpop (by simp)
    obtain ⟨h3, h4⟩ := price_push (s := ({ s with stack := fs } : Engine σ)) (f := .finishMaybe)
      (by simp)
    obtain ⟨h5, h6⟩ := price_callUser (s := { s with stack := .finishMaybe :: fs }) callback true
    simp only [Frame.price, Frame.pending] at h1 h2 h3 h4
    exact hless _ (by simp only [runFrame]; omega) (by simp only [runFrame]; omega)
  | finishMaybe =>
    obtain ⟨h1, h2⟩ := hpop (by simp)
    exact nearer_finishMaybe h1 h2
  | ended =>
    obtain ⟨h1, h2⟩ := hpop (by simp)
    have hflag : ∀ u : Engine σ, u.price + 1 = s.price → u.pending = s.pending →
        Nearer ({ u with ws.ended := true } : Engine σ) s := fun u e1 e2 =>
      nearer_of_le (show u.pending ≤ _ by omega) (show u.price < _ by omega)
    exact hflag _ h1 h2
  | emitError e =>
    obtain ⟨h1, h2⟩ := hpop (by simp)
    obtain ⟨h3, h4⟩ := price_emit (s := { s with stack := fs }) (.error e)
    simp only [Frame.price, Frame.pending] at h1 h2
    exact hless _ (by simp only [runFrame]; omega) (by simp only [runFrame]; omega)
  | endListeners ids =>
    obtain ⟨h1, h2⟩ := hpop (by simp)
    cases ids with
    | nil =>
      simp only [Frame.price, List.length_nil] at h1
      exact hless _ (show ({ s with stack := fs } : Engine σ).price < _ by omega)
        (show ({ s with stack := fs } : Engine σ).pending ≤ _ by omega)
    | cons id ids =>
      obtain ⟨h3, h4⟩ := price_push (s := ({ s with stack := fs } : Engine σ))
        (f := .endListeners ids) (by simp)
      obtain ⟨h5, h6⟩ := price_callUser (s := { s with stack := .endListeners ids :: fs })
        (some id) true
      simp only [Frame.price, Frame.pending, List.length_cons] at h1 h2 h3 h4
      exact hless _ (by simp only [runFrame]; omega) (by simp only [runFrame]; omega)
  | afterShim =>
    obtain ⟨h1, h2⟩ := hpop (by simp)
    obtain ⟨h3, h4⟩ := price_ctx (s := { s with stack := fs }) s.ctx.sameWork_afterCallback
    simp only [Frame.price] at h1
    exact hless _ (h3.trans_lt (by omega)) (h4.trans_le (by omega))
  | sendError =>
    obtain ⟨h1, h2⟩ := hpop (by simp)
    obtain ⟨h3, h4⟩ := price_ctx (s := { s with stack := fs }) s.ctx.sameWork_afterOnerror
    simp only [Frame.price] at h1
    exact hless _ (h3.trans_lt (by omega)) (h4.trans_le (by omega))

end Engine

end NodeVcdiff
