import NodeVcdiff.CoreStep

/-!
# Whose turn it is

At each moment at most one `_transform` or `_flush` call is in progress, and its callback is
in one place: due to be called first, with the native context, or waiting in the tick queue
or on the stack. After a failure the callback is nowhere. The flags of both sides and the
closing of the coder follow from that.
-/

namespace NodeVcdiff

variable {σ : Type*}

/-- Where the callback of the current call is. -/
inductive Turn where
  /-- no call is in progress -/
  | rest
  /-- the call starts next -/
  | called (call : Calling)
  /-- in the tick queue or on the stack -/
  | parked (k : TransformCb)
  /-- with the native write -/
  | native (k : TransformCb)
  /-- dropped by a failed write -/
  | lost (k : TransformCb)

namespace Core

/-- The call that waits for `k` is in progress. -/
def Busy (c : Core σ) : TransformCb → Prop
  | .afterTransform => c.transforming = true ∧ c.writing.isSome = true
  | .done => c.transforming = false ∧ c.prefinished = true ∧ c.eof = false

/-- No callback of a call waits anywhere. -/
structure Free (c : Core σ) : Prop where
  after : c.after = 0
  done : c.done = 0
  workReq : c.ctx.workReq = none

/-- The callback of the current call is where `t` says. -/
def At (c : Core σ) : Turn → Prop
  | .rest => c.calling = none ∧ c.Free ∧ c.transforming = false ∧ c.hadError = false ∧
      c.ctx.err = .ok
  | .called call => c.calling = some call ∧ c.Free ∧ c.transforming = false ∧
      c.hadError = false ∧ c.ctx.err = .ok ∧
      match call with
      | .transform _ => c.writing.isSome = true
      | .flush => c.prefinished = true ∧ c.eof = false
  | .parked k => c.calling = none ∧ c.after = (if k = .afterTransform then 1 else 0) ∧
      c.done = (if k = .done then 1 else 0) ∧ c.ctx.workReq = none ∧ c.hadError = false ∧
      c.ctx.err = .ok ∧ c.Busy k
  | .native k => c.calling = none ∧ c.after = 0 ∧ c.done = 0 ∧ c.ctx.workReq.isSome = true ∧
      c.callback = some k ∧ c.hadError = false ∧ (c.ctx.workDone = false → c.ctx.err = .ok) ∧
      c.Busy k
  | .lost k => c.calling = none ∧ c.Free ∧ c.hadError = true ∧ c.ctx.err ≠ .ok ∧ c.Busy k

/-- The flags of the stream and of the context. -/
structure Flags (c : Core σ) : Prop where
  fault : c.fault = none
  handle : c.handle = !c.hadError
  opened : c.closed = false → c.ctx.coder.isSome ∧ c.ctx.pendingClose = false
  finished : c.prefinished = true →
    c.ending = true ∧ c.writing = none ∧ c.queue = [] ∧ c.length = 0
  eof : c.eof = true → c.prefinished = true
  inProgress : c.ctx.writeInProgress = (c.ctx.workReq.isSome || decide (0 < c.sendError))
  coder : c.ctx.writeInProgress = true → c.ctx.coder.isSome
  pending : c.ctx.pendingClose = true → c.ctx.writeInProgress = true ∨ 0 < c.afterShim
  shims : c.afterShim + c.sendError ≤ 1
  sendError : 0 < c.sendError → c.hadError = true

/-- What the history says about closing, about refused chunks and about the end. -/
structure Noted (c : Core σ) : Prop where
  requested : .nativeClose ∈ c.log → c.ctx.pendingClose = true ∨ c.ctx.coder = none
  closed : c.closed = true ↔ .close ∈ c.log
  ended : .endEvent ∈ c.log → c.eof = true
  refused : c.log.Refused → c.closed = true ∧ c.eof = false ∧ c.Free

/-- The control part of the invariant. -/
structure Control (c : Core σ) : Prop where
  turn : ∃ t, c.At t
  flags : c.Flags
  noted : c.Noted

/-! ## The native context of an open stream -/

/-- `take` of a chunk by `_processChunk`. -/
def take (c : Core σ) (chunk : Buffer) : Core σ :=
  { c with
    nread := c.nread + chunk.length
    buffers := c.buffers ++ [chunk]
    log := .take chunk :: c.log }

/-- Everything held in `_buffers` goes into a native write. -/
def submit (c : Core σ) (isLast : Bool) (k : TransformCb) : Core σ :=
  let data := Engine.concat c.buffers c.nread
  { c with
    nread := 0
    buffers := []
    callback := some k
    ctx := { c.ctx with
      writeInProgress := true, inBuffer := some data
      workReq := some ⟨data, isLast⟩, workDone := false }
    log := .nativeWrite isLast data :: c.log }

/-- The condition of `_processChunk` for handing the buffers to the native write. -/
def full (c : Core σ) (forceFlush : Bool) : Bool :=
  c.window.le (.ofInt c.nread) || forceFlush || decide (c.mode = .decode)

theorem processChunk_eq {c : Core σ} (hopen : c.closed = false) (hcoder : c.ctx.coder.isSome)
    (hwip : c.ctx.writeInProgress = false) (hpend : c.ctx.pendingClose = false)
    (chunk : Buffer) (isLast forceFlush : Bool) (k : TransformCb) :
    c.processChunk chunk isLast forceFlush k =
      if (c.take chunk).full forceFlush then (c.take chunk).submit isLast k
      else (c.take chunk).park k := by
  have hnone : c.ctx.coder.isNone = false := by
    rw [← Option.not_isSome, hcoder]; rfl
  unfold processChunk
  refine if_congr Iff.rfl ?_ rfl
  rw [if_neg (by simp [hopen])]
  simp only [nativeWrite, VcdCtx.writeAsync, VcdCtx.beginWrite, hnone, hwip, hpend,
    Bool.false_eq_true, if_false, Except.map, note, submit, take]

end Core

/-- An event that tells nothing about closing, refusal or the end. -/
def Event.isNeutral : Event → Bool
  | .close | .nativeClose | .endEvent | .transformCb _ false => false
  | _ => true

/-- The callback that a call is given. -/
def Calling.callback : Calling → TransformCb
  | .transform _ => .afterTransform
  | .flush => .done

namespace Core

variable {K : Coder σ} {c c' : Core σ}

/-- The chunk of a call. -/
def chunkOf (c : Core σ) : Calling → Buffer
  | .transform _ => (c.writing.map WriteReq.chunk).getD []
  | .flush => []

/-- A call begins. -/
def begin (c : Core σ) : Calling → Core σ
  | .transform _ => { c with calling := none, transforming := true }
  | .flush => { c with calling := none }

/-- What a call does to an open stream: `_processChunk` hands over or keeps. -/
def running (c : Core σ) (call : Calling) (forceFlush : Bool) : Core σ :=
  let c' := (c.begin call).take (c.chunkOf call)
  if c'.full (forceFlush || decide ((c.chunkOf call).length = 0)) then
    c'.submit (c.ending && decide (c.length = (c.chunkOf call).length)) call.callback
  else c'.park call.callback

theorem runCalling_eq {call : Calling} (ht : c.At (.called call)) (hf : c.Flags)
    (forceFlush : Bool) : c.runCalling call forceFlush =
      if c.closed then (c.begin call).transformCb call.callback false
      else c.running call forceFlush := by
  obtain ⟨hc, hfree, -, hh, -, hcall⟩ := ht
  have hsend : c.sendError = 0 := by
    by_contra hn
    have := hf.sendError (Nat.pos_of_ne_zero hn)
    simp [hh] at this
  have hwip : c.ctx.writeInProgress = false := by
    rw [hf.inProgress, hfree.workReq, hsend]; rfl
  have key : ∀ b : Core σ, b.ctx = c.ctx → b.closed = c.closed → ∀ (chunk : Buffer) (ff : Bool)
      (k : TransformCb), b.transform chunk ff k =
        if c.closed then b.transformCb k false
        else if (b.take chunk).full ff then
          (b.take chunk).submit (b.ending && decide (b.length = chunk.length)) k
        else (b.take chunk).park k := by
    intro b hctx hcl chunk ff k
    unfold transform
    rw [hcl]
    by_cases hcc : c.closed = true
    · rw [if_pos hcc, if_pos hcc]
    · rw [if_neg hcc, if_neg hcc]
      have hopen := hf.opened (Bool.eq_false_iff.mpr hcc)
      exact processChunk_eq (hcl ▸ Bool.eq_false_iff.mpr hcc) (hctx ▸ hopen.1) (hctx ▸ hwip)
        (hctx ▸ hopen.2) chunk _ ff k
  cases call with
  | transform sync =>
    obtain ⟨req, hreq⟩ := Option.isSome_iff_exists.mp hcall
    have hrun : c.runCalling (.transform sync) forceFlush =
        (c.begin (.transform sync)).transform req.chunk
          (forceFlush || decide (req.chunk.length = 0)) .afterTransform := by
      unfold runCalling begin
      simp only [hreq]
    rw [hrun, key (c.begin (.transform sync)) rfl rfl]
    simp only [running, chunkOf, hreq, Option.map_some, Option.getD_some]
    rfl
  | flush =>
    have hrun : c.runCalling .flush forceFlush = (c.begin .flush).transform [] true .done := rfl
    rw [hrun, key (c.begin .flush) rfl rfl]
    simp only [running, chunkOf, List.length_nil, decide_true, Bool.or_true]
    rfl

/-- `d` is `c` after a call that was turned down: only its callback was called. -/
structure TurnedDown (c : Core σ) (k : TransformCb) (d : Core σ) : Prop where
  ctx : d.ctx = c.ctx
  log : d.log = .transformCb k false :: c.log
  writing : d.writing.toList ⊆ c.writing.toList
  queue : d.queue = c.queue
  buffers : d.buffers = c.buffers
  window : d.window = c.window
  ending : d.ending = c.ending

theorem turnedDown (c : Core σ) (call : Calling) :
    c.TurnedDown call.callback ((c.begin call).transformCb call.callback false) := by
  cases call with
  | transform sync =>
    cases hw : c.writing <;>
      constructor <;> simp [transformCb, begin, note, hw, finishWriting, Calling.callback]
  | flush => exact ⟨rfl, rfl, fun _ => id, rfl, rfl, rfl, rfl⟩

/-! ## Steps that move no callback -/

theorem At.congr {t : Turn} (h : c.At t) (h1 : c'.calling = c.calling) (h2 : c'.after = c.after)
    (h3 : c'.done = c.done) (h4 : c'.ctx.workReq = c.ctx.workReq)
    (h5 : c'.transforming = c.transforming) (h6 : c'.hadError = c.hadError)
    (h7 : c'.ctx.err = c.ctx.err) (h8 : c.writing.isSome = true → c'.writing.isSome = true)
    (h9 : c'.prefinished = c.prefinished) (h10 : c'.eof = c.eof)
    (h11 : c'.callback = c.callback) (h12 : c'.ctx.workDone = c.ctx.workDone) : c'.At t := by
  have hfree : c.Free → c'.Free := fun hf => ⟨h2 ▸ hf.after, h3 ▸ hf.done, h4 ▸ hf.workReq⟩
  have hbusy : ∀ k, c.Busy k → c'.Busy k := by
    rintro (_ | _) hb
    · exact ⟨h5 ▸ hb.1, h8 hb.2⟩
    · exact ⟨h5 ▸ hb.1, h9 ▸ hb.2.1, h10 ▸ hb.2.2⟩
  cases t with
  | rest =>
    obtain ⟨a, b, d, e, f⟩ := h
    exact ⟨h1 ▸ a, hfree b, h5 ▸ d, h6 ▸ e, h7 ▸ f⟩
  | called call =>
    obtain ⟨a, b, d, e, f, g⟩ := h
    refine ⟨h1 ▸ a, hfree b, h5 ▸ d, h6 ▸ e, h7 ▸ f, ?_⟩
    cases call with
    | transform sync => exact h8 g
    | flush => exact ⟨h9 ▸ g.1, h10 ▸ g.2⟩
  | parked k =>
    obtain ⟨a, b, d, e, f, g, i⟩ := h
    exact ⟨h1 ▸ a, h2 ▸ b, h3 ▸ d, h4 ▸ e, h6 ▸ f, h7 ▸ g, hbusy k i⟩
  | native k =>
    obtain ⟨a, b, d, e, f, g, i, j⟩ := h
    exact ⟨h1 ▸ a, h2 ▸ b, h3 ▸ d, h4 ▸ e, h11 ▸ f, h6 ▸ g, by rw [h12, h7]; exact i, hbusy k j⟩
  | lost k =>
    obtain ⟨a, b, d, e, f⟩ := h
    exact ⟨h1 ▸ a, hfree b, h6 ▸ d, h7 ▸ e, hbusy k f⟩

/-- A chunk becomes the current one while no call is in progress. -/
theorem At.start (h : c.At .rest) (req : WriteReq) (wants : Bool) :
    ∃ t, (c.start req wants).At t := by
  obtain ⟨a, b, d, e, f⟩ := h
  cases wants with
  | false => exact ⟨.rest, a, ⟨b.after, b.done, b.workReq⟩, d, e, f⟩
  | true => exact ⟨.called (.transform true), rfl, ⟨b.after, b.done, b.workReq⟩, d, e, f, rfl⟩

/-- A state in which no call is due and no chunk is current, and the stream is not
finished, is at rest. -/
theorem At.rest_of_writing {t : Turn} (h : c.At t) (hc : c.calling = none)
    (hw : c.writing = none) (hp : c.prefinished = false) : c.At .rest := by
  cases t with
  | rest => exact h
  | called call => rw [h.1] at hc; cases hc
  | parked k => cases k <;> simp [At, Busy, hw, hp] at h
  | native k => cases k <;> simp [At, Busy, hw, hp] at h
  | lost k => cases k <;> simp [At, Busy, hw, hp] at h

/-- A chunk that is current and not taken waits for its call. -/
theorem At.rest_of_idle {t : Turn} (h : c.At t) (hf : c.Flags) (hc : c.calling = none)
    (hw : c.writing.isSome) (ht : c.transforming = false) : c.At .rest := by
  have hp : c.prefinished = false := by
    by_contra hne
    have := (hf.finished (by simpa using hne)).2.1
    simp [this] at hw
  cases t with
  | rest => exact h
  | called call => rw [h.1] at hc; cases hc
  | parked k => cases k <;> simp [At, Busy, ht, hp] at h
  | native k => cases k <;> simp [At, Busy, ht, hp] at h
  | lost k => cases k <;> simp [At, Busy, ht, hp] at h

theorem Noted.append (h : c.Noted) (new : History) (hlog : c'.log = new ++ c.log)
    (hnew : ∀ e ∈ new, e.isNeutral = true) (hcl : c'.closed = c.closed)
    (heof : c.eof = true → c'.eof = true)
    (hpend : c'.ctx.pendingClose = c.ctx.pendingClose) (hcoder : c'.ctx.coder = none ↔ c.ctx.coder = none)
    (href : c.closed = true → c.eof = false → c.Free → c'.eof = false ∧ c'.Free) : c'.Noted := by
  have hmem : ∀ e : Event, e.isNeutral = false → (e ∈ c'.log ↔ e ∈ c.log) := by
    intro e he
    rw [hlog, List.mem_append]
    refine ⟨fun hm => hm.resolve_left fun hm => ?_, .inr⟩
    simp [hnew e hm] at he
  refine ⟨?_, ?_, ?_, ?_⟩
  · rw [hmem _ rfl, hpend, hcoder]; exact h.requested
  · rw [hmem _ rfl, hcl]; exact h.closed
  · rw [hmem _ rfl]; exact fun hm => heof (h.ended hm)
  · rintro ⟨k, hk⟩
    obtain ⟨h1, h2, h3⟩ := h.refused ⟨k, (hmem _ rfl).mp hk⟩
    exact ⟨hcl ▸ h1, href h1 h2 h3⟩

theorem Control.accept (h : c.Control) (hc : c.calling = none) (he : c.ending = false)
    (req : WriteReq) (wants : Bool) : (c.accept req wants).Control := by
  obtain ⟨⟨t, ht⟩, hf, hn⟩ := h
  have hp : c.prefinished = false := by
    by_contra hne
    have := (hf.finished (by simpa using hne)).1
    simp [he] at this
  by_cases hw : c.writing.isSome = true
  · have heq : c.accept req wants = { c with
        length := c.length + req.chunk.length
        queue := c.queue ++ [req]
        log := .accept req.chunk :: c.log } := by
      simp [Core.accept, hw]
    rw [heq]
    refine ⟨⟨t, ht.congr rfl rfl rfl rfl rfl rfl rfl id rfl rfl rfl rfl⟩, ?_, ?_⟩
    · exact { hf with finished := fun hne => by simp [hp] at hne }
    · exact hn.append [.accept req.chunk] rfl (by simp [Event.isNeutral]) rfl id rfl Iff.rfl
        fun _ h2 h3 => ⟨h2, h3.after, h3.done, h3.workReq⟩
  · have heq : c.accept req wants = ({ c with
        length := c.length + req.chunk.length
        log := .accept req.chunk :: c.log } : Core σ).start req wants := by
      simp [Core.accept, hw]
    rw [heq]
    have hrest := ht.rest_of_writing hc (by simpa using hw) hp
    refine ⟨At.start (c := { c with
        length := c.length + req.chunk.length
        log := .accept req.chunk :: c.log })
      (hrest.congr rfl rfl rfl rfl rfl rfl rfl id rfl rfl rfl rfl) req wants, ?_, ?_⟩
    · exact { hf with finished := fun hne => by simp [start, hp] at hne }
    · exact hn.append [.accept req.chunk] rfl (by simp [Event.isNeutral]) rfl id rfl Iff.rfl
        fun _ h2 h3 => ⟨h2, h3.after, h3.done, h3.workReq⟩

/-- A stream whose next chunk is queued, none being current, is at rest. -/
theorem Control.rest_before_next (h : c.Control) (hc : c.calling = none) (hw : c.writing = none)
    {req : WriteReq} {rest : List WriteReq} (hq : c.queue = req :: rest) : c.At .rest := by
  obtain ⟨⟨t, ht⟩, hf, -⟩ := h
  have hp : c.prefinished = false := by
    by_contra hne
    have := (hf.finished (by simpa using hne)).2.2.1
    simp [hq] at this
  exact ht.rest_of_writing hc hw hp

theorem Control.next (h : c.Control) (hc : c.calling = none) (hw : c.writing = none)
    {req : WriteReq} {rest : List WriteReq} (hq : c.queue = req :: rest) (wants : Bool) :
    (({ c with queue := rest } : Core σ).start req wants).Control := by
  have hrest := h.rest_before_next hc hw hq
  obtain ⟨-, hf, hn⟩ := h
  refine ⟨At.start (c := { c with queue := rest })
    (hrest.congr rfl rfl rfl rfl rfl rfl rfl id rfl rfl rfl rfl) req wants, ?_, ?_⟩
  · exact { hf with
      finished := fun hne => by
        have := (hf.finished hne).2.2.1
        simp [hq] at this }
  · exact hn.append [] rfl (by simp) rfl id rfl Iff.rfl
      fun _ h2 h3 => ⟨h2, h3.after, h3.done, h3.workReq⟩

theorem Control.demand (h : c.Control) (hc : c.calling = none) (hw : c.writing.isSome)
    (ht : c.transforming = false) :
    ({ c with calling := some (.transform false) } : Core σ).Control := by
  obtain ⟨⟨t, hat⟩, hf, hn⟩ := h
  obtain ⟨_, b, d, e, f⟩ := hat.rest_of_idle hf hc hw ht
  refine ⟨⟨.called (.transform false), rfl, ⟨b.1, b.2, b.3⟩, d, e, f, hw⟩, { hf with }, ?_⟩
  exact hn.append [] rfl (by simp) rfl id rfl Iff.rfl
    fun _ h2 h3 => ⟨h2, h3.after, h3.done, h3.workReq⟩

theorem Control.ending (h : c.Control) : ({ c with ending := true } : Core σ).Control := by
  obtain ⟨⟨t, ht⟩, hf, hn⟩ := h
  refine ⟨⟨t, ht.congr rfl rfl rfl rfl rfl rfl rfl id rfl rfl rfl rfl⟩, ?_, ?_⟩
  · exact { hf with finished := fun hp => ⟨rfl, (hf.finished hp).2⟩ }
  · exact hn.append [] rfl (by simp) rfl id rfl Iff.rfl
      fun _ h2 h3 => ⟨h2, h3.after, h3.done, h3.workReq⟩

theorem Control.finish (h : c.Control) (hc : c.calling = none) (he : c.ending = true)
    (hl : c.length = 0) (hq : c.queue = []) (hw : c.writing = none)
    (hp : c.prefinished = false) :
    ({ c with prefinished := true, calling := some .flush } : Core σ).Control := by
  obtain ⟨⟨t, ht⟩, hf, hn⟩ := h
  obtain ⟨_, b, d, e, f⟩ := ht.rest_of_writing hc hw hp
  have heof : c.eof = false := by
    by_contra hne
    simp [hf.eof (by simpa using hne)] at hp
  refine ⟨⟨.called .flush, rfl, ⟨b.1, b.2, b.3⟩, d, e, f, rfl, heof⟩, ?_, ?_⟩
  · exact { hf with finished := fun _ => ⟨he, hw, hq, hl⟩, eof := fun _ => rfl }
  · exact hn.append [] rfl (by simp) rfl id rfl Iff.rfl
      fun _ h2 h3 => ⟨h2, h3.after, h3.done, h3.workReq⟩

/-! ## Closing -/

theorem Control.close (h : c.Control) : c.close.Control := by
  obtain ⟨⟨t, ht⟩, hf, hn⟩ := h
  cases hcl : c.closed with
  | true =>
    have heq : c.close = c.note .close := by simp [Core.close, note, hcl]
    rw [heq]
    refine ⟨⟨t, ht.congr rfl rfl rfl rfl rfl rfl rfl id rfl rfl rfl rfl⟩, { hf with }, ?_⟩
    refine ⟨fun hm => hn.requested (by simpa [note] using hm), ?_, ?_, ?_⟩
    · simp [note, hcl]
    · exact fun hm => hn.ended (by simpa [note] using hm)
    · exact fun hm => (hn.refused (by simpa [note] using hm)).imp_right
        (And.imp_right fun h => ⟨h.1, h.2, h.3⟩)
  | false =>
    have hlog : .close ∉ c.log := fun hm => by simp [hn.closed.mpr hm] at hcl
    have hopen := hf.opened hcl
    have hreq : .nativeClose ∉ c.log := fun hm => by
      rcases hn.requested hm with hp | hp
      · simp [hopen.2] at hp
      · simp [hp] at hopen
    have href : ¬ c.log.Refused := fun hm => by simp [(hn.refused hm).1] at hcl
    cases hh : c.handle with
    | false =>
      have heq : c.close = { c.note .close with closed := true } := by
        simp [Core.close, note, hcl, hh]
      rw [heq]
      refine ⟨⟨t, ht.congr rfl rfl rfl rfl rfl rfl rfl id rfl rfl rfl rfl⟩,
        { hf with opened := fun hne => by simp at hne }, ?_⟩
      refine ⟨fun hm => absurd (by simpa [note] using hm) hreq, by simp [note], ?_, ?_⟩
      · exact fun hm => hn.ended (by simpa [note] using hm)
      · exact fun hm => absurd (by simpa [note] using hm) href
    | true =>
      have heq : c.close =
          ({ c.note .close with closed := true, ctx := c.ctx.close } : Core σ).note
            .nativeClose := by
        simp [Core.close, note, hcl, hh]
      rw [heq]
      have hx := VcdCtx.sameWork_close c.ctx
      refine ⟨⟨t, ht.congr rfl rfl rfl hx.workReq rfl rfl hx.err id rfl rfl rfl hx.workDone⟩, ?_, ?_⟩
      · cases hwip : c.ctx.writeInProgress with
        | true =>
          have hcc : c.ctx.close = { c.ctx with pendingClose := true } := by
            simp [VcdCtx.close, hwip]
          rw [hcc]
          exact { hf with opened := fun hne => by simp [note] at hne, pending := fun _ => .inl hwip }
        | false =>
          have hcc : c.ctx.close = c.ctx.reset := by simp [VcdCtx.close, hwip]
          rw [hcc]
          exact { hf with
            opened := fun hne => by simp [note] at hne
            inProgress := hwip.symm.trans hf.inProgress
            coder := fun hne => by simp [note, VcdCtx.reset] at hne
            pending := fun hne => by simp [note, VcdCtx.reset] at hne }
      · refine ⟨fun _ => ?_, by simp [note], ?_, ?_⟩
        · cases hwip : c.ctx.writeInProgress with
          | true => left; simp [note, VcdCtx.close, hwip]
          | false => right; simp [note, VcdCtx.close, VcdCtx.reset, hwip]
        · exact fun hm => hn.ended (by simpa [note] using hm)
        · exact fun hm => absurd (by simpa [note] using hm) href

theorem Control.endEvent (h : c.Control) (he : c.eof = true) : (c.note .endEvent).Control := by
  obtain ⟨⟨t, ht⟩, hf, hn⟩ := h
  refine ⟨⟨t, ht.congr rfl rfl rfl rfl rfl rfl rfl id rfl rfl rfl rfl⟩, { hf with }, ?_⟩
  refine ⟨fun hm => hn.requested (by simpa [note] using hm), ?_, fun _ => he, ?_⟩
  · simpa [note] using hn.closed
  · exact fun hm => (hn.refused (by simpa [note] using hm)).imp_right
      (And.imp_right fun h => ⟨h.1, h.2, h.3⟩)

/-! ## Calls -/

theorem Control.called (h : c.Control) {call : Calling} (hc : c.calling = some call) :
    c.At (.called call) := by
  obtain ⟨⟨t, ht⟩, -, -⟩ := h
  cases t with
  | called call' =>
    obtain rfl : call = call' := Option.some.inj (hc.symm.trans ht.1)
    exact ht
  | rest => rw [ht.1] at hc; cases hc
  | parked k => rw [ht.1] at hc; cases hc
  | native k => rw [ht.1] at hc; cases hc
  | lost k => rw [ht.1] at hc; cases hc

theorem Control.call (h : c.Control) {call : Calling} (hc : c.calling = some call)
    (forceFlush : Bool) : (c.runCalling call forceFlush).Control := by
  have hat := h.called hc
  obtain ⟨-, hf, hn⟩ := h
  have heofc : c.eof = false := by
    cases call with
    | transform sync =>
      by_contra hne
      have hw := hat.2.2.2.2.2
      rw [(hf.finished (hf.eof (by simpa using hne))).2.1] at hw
      cases hw
    | flush => exact hat.2.2.2.2.2.2
  rw [runCalling_eq hat hf]
  obtain ⟨_, ⟨h1, h2, h3⟩, htr, hh, herr, hcall⟩ := hat
  have hsend : c.sendError = 0 := by
    by_contra hne
    have := hf.sendError (Nat.pos_of_ne_zero hne)
    simp [hh] at this
  cases hcl : c.closed with
  | true =>
    simp only [if_true]
    cases call with
    | transform sync =>
      obtain ⟨req, hreq⟩ := Option.isSome_iff_exists.mp hcall
      have hp : c.prefinished = false := by
        by_contra hne
        simp [(hf.finished (by simpa using hne)).2.1] at hreq
      have heq : (c.begin (.transform sync)).transformCb .afterTransform false =
          { c with
            calling := none, transforming := false, writing := none
            length := c.length - req.chunk.length
            log := .transformCb .afterTransform false :: c.log } := by
        simp [transformCb, begin, note, hreq, finishWriting]
      simp only [Calling.callback, heq]
      refine ⟨⟨.rest, rfl, ⟨h1, h2, h3⟩, rfl, hh, herr⟩, ?_, ?_⟩
      · exact { hf with finished := fun hne => by simp [hp] at hne }
      · refine ⟨fun hm => hn.requested (by simpa using hm), by simpa using hn.closed, ?_, ?_⟩
        · exact fun hm => hn.ended (by simpa using hm)
        · exact fun _ => ⟨hcl, heofc, h1, h2, h3⟩
    | flush =>
      have heq : (c.begin .flush).transformCb .done false =
          { c with calling := none, log := .transformCb .done false :: c.log } := by
        simp [transformCb, begin, note]
      simp only [Calling.callback, heq]
      refine ⟨⟨.rest, rfl, ⟨h1, h2, h3⟩, htr, hh, herr⟩, { hf with }, ?_⟩
      refine ⟨fun hm => hn.requested (by simpa using hm), by simpa using hn.closed, ?_, ?_⟩
      · exact fun hm => hn.ended (by simpa using hm)
      · exact fun _ => ⟨hcl, heofc, h1, h2, h3⟩
  | false =>
    have hopen := hf.opened hcl
    simp only [Bool.false_eq_true, if_false, running]
    -- the call is running: whether it hands over or keeps, `Busy` holds
    have hbusy : ∀ d : Core σ, d.transforming = (c.begin call).transforming →
        d.writing = c.writing → d.prefinished = c.prefinished → d.eof = c.eof →
        d.Busy call.callback := by
      intro d e1 e2 e3 e4
      cases call with
      | transform sync => exact ⟨e1, e2 ▸ hcall⟩
      | flush => exact ⟨e1.trans htr, e3 ▸ hcall.1, e4.trans heofc⟩
    have hb : (c.begin call).ctx = c.ctx ∧ (c.begin call).log = c.log ∧
        (c.begin call).calling = none := by cases call <;> exact ⟨rfl, rfl, rfl⟩
    have hfb : (c.begin call).Flags := by cases call <;> exact { hf with }
    have hnb : (c.begin call).Noted := by
      cases call <;> exact hn.append [] rfl (by simp) rfl id rfl Iff.rfl
        fun hne => by simp [hcl] at hne
    have hbegin : (c.begin call).after = 0 ∧ (c.begin call).done = 0 ∧
        (c.begin call).hadError = false ∧ (c.begin call).closed = false ∧
        (c.begin call).sendError = 0 ∧ (c.begin call).writing = c.writing ∧
        (c.begin call).prefinished = c.prefinished ∧ (c.begin call).eof = c.eof := by
      cases call <;> exact ⟨h1, h2, hh, hcl, hsend, rfl, rfl, rfl⟩
    obtain ⟨b1, b2, b3, b4, b5, b6, b7, b8⟩ := hbegin
    split
    · refine ⟨⟨.native call.callback, hb.2.2, b1, b2, rfl, rfl, b3,
        fun _ => (congrArg VcdCtx.err hb.1).trans herr,
        hbusy _ rfl b6 b7 b8⟩, ?_, ?_⟩
      · exact { hfb with
          inProgress := by simp [submit]
          coder := fun _ => (congrArg (·.coder.isSome) hb.1).trans hopen.1
          pending := fun _ => .inl rfl }
      · exact hnb.append [_, _] rfl (by simp [Event.isNeutral]) rfl id rfl Iff.rfl
          fun hne => by simp [b4] at hne
    · have hpark : ∀ k : TransformCb, (((c.begin call).take (c.chunkOf call)).park k).ctx = c.ctx ∧
          (((c.begin call).take (c.chunkOf call)).park k).after =
            (if k = .afterTransform then 1 else 0) ∧
          (((c.begin call).take (c.chunkOf call)).park k).done = (if k = .done then 1 else 0) := by
        rintro (_ | _) <;> simp [park, take, hb.1, b1, b2]
      obtain ⟨p1, p2, p3⟩ := hpark call.callback
      refine ⟨⟨.parked call.callback, ?_, p2, p3, p1 ▸ h3, ?_, p1 ▸ herr, ?_⟩, ?_, ?_⟩
      · cases call <;> rfl
      · cases call <;> exact hh
      · apply hbusy <;> cases call <;> rfl
      · cases call <;> exact { hfb with }
      · refine hnb.append [.take (c.chunkOf call)] ?_ (by simp [Event.isNeutral]) ?_ ?_ ?_ ?_ ?_
        · cases call <;> rfl
        · cases call <;> rfl
        · cases call <;> exact id
        · cases call <;> rfl
        · cases call <;> exact Iff.rfl
        · exact fun hne => by simp [b4] at hne

theorem Free.parked (h : c.Free) (k : TransformCb) : c.parked k = 0 := by
  cases k
  · exact h.after
  · exact h.done

theorem Control.waits (h : c.Control) {k : TransformCb} (hk : 0 < c.parked k) :
    c.At (.parked k) := by
  obtain ⟨⟨t, ht⟩, -, -⟩ := h
  have hno : ∀ {n : ℕ}, c.parked k = n → n = 0 → False := fun h1 h2 => by omega
  cases t with
  | rest => exact (hno (ht.2.1.parked k) rfl).elim
  | called call => exact (hno (ht.2.1.parked k) rfl).elim
  | lost k' => exact (hno (ht.2.1.parked k) rfl).elim
  | native k' =>
    cases k
    · exact (hno rfl ht.2.1).elim
    · exact (hno rfl ht.2.2.1).elim
  | parked k' =>
    cases k <;> cases k'
    · exact ht
    · exact (hno rfl ht.2.1).elim
    · exact (hno rfl ht.2.2.1).elim
    · exact ht

theorem settle_afterTransform {req : WriteReq} (hw : c.writing = some req) :
    (c.unpark .afterTransform).transformCb .afterTransform true =
      { c with
        after := c.after - 1, transforming := false, writing := none
        length := c.length - req.chunk.length
        log := .transformCb .afterTransform true :: c.log } := by
  simp [transformCb, unpark, note, hw, finishWriting]

theorem settle_done : (c.unpark .done).transformCb .done true =
    { c with done := c.done - 1, eof := true, log := .transformCb .done true :: c.log } := by
  simp [transformCb, unpark, note]

/-- The callback of the call is called: no call is in progress any more. -/
theorem At.settle {k : TransformCb} (h : c.At (.parked k)) :
    ((c.unpark k).transformCb k true).calling = none ∧
      ((c.unpark k).transformCb k true).Free ∧
      ((c.unpark k).transformCb k true).transforming = false ∧
      (k = .afterTransform → ((c.unpark k).transformCb k true).writing = none) ∧
      ((c.unpark k).transformCb k true).ctx = c.ctx ∧
      ((c.unpark k).transformCb k true).log = .transformCb k true :: c.log := by
  obtain ⟨h1, h2, h3, h4, -, -, hb⟩ := h
  cases k with
  | afterTransform =>
    obtain ⟨req, hreq⟩ := Option.isSome_iff_exists.mp hb.2
    rw [settle_afterTransform hreq]
    exact ⟨h1, ⟨by simp [h2], h3, h4⟩, rfl, fun _ => rfl, rfl, rfl⟩
  | done =>
    rw [settle_done]
    exact ⟨h1, ⟨h2, by simp [h3], h4⟩, hb.1, by simp, rfl, rfl⟩

/-- A waiting callback is called. -/
theorem Control.settle (h : c.Control) {k : TransformCb} (hk : 0 < c.parked k) :
    ((c.unpark k).transformCb k true).Control := by
  have hat := h.waits hk
  obtain ⟨-, hf, hn⟩ := h
  have href : ¬ c.log.Refused := fun hm => by
    have := (hn.refused hm).2.2.parked k
    omega
  obtain ⟨hcall, h1, h2, h3, hh, herr, hbusy⟩ := hat
  cases k with
  | afterTransform =>
    obtain ⟨req, hreq⟩ := Option.isSome_iff_exists.mp hbusy.2
    have hp : c.prefinished = false := by
      by_contra hne
      simp [(hf.finished (by simpa using hne)).2.1] at hreq
    rw [settle_afterTransform hreq]
    simp only [if_true] at h1
    refine ⟨⟨.rest, hcall, ⟨by simp [h1], h2, h3⟩, rfl, hh, herr⟩, ?_, ?_⟩
    · exact { hf with finished := fun hne => by simp [hp] at hne }
    · exact hn.append [_] rfl (by simp [Event.isNeutral]) rfl id rfl Iff.rfl
        fun _ b f => ⟨b, by simp [h1], h2, h3⟩
  | done =>
    rw [settle_done]
    simp only [if_true] at h2
    refine ⟨⟨.rest, hcall, ⟨h1, by simp [h2], h3⟩, hbusy.1, hh, herr⟩, ?_, ?_⟩
    · exact { hf with eof := fun _ => hbusy.2.1 }
    · refine ⟨fun hm => hn.requested (by simpa using hm), by simpa using hn.closed,
        fun _ => rfl, fun hm => absurd (by simpa using hm) href⟩

/-! ## The native side -/

/-- A write is in flight: its callback is the current call's. -/
theorem Control.native (h : c.Control) (hw : c.ctx.workReq.isSome) : ∃ k, c.At (.native k) := by
  obtain ⟨⟨t, ht⟩, -, -⟩ := h
  have hno : c.ctx.workReq ≠ none := fun hn => by simp [hn] at hw
  cases t with
  | rest => exact absurd ht.2.1.workReq hno
  | called call => exact absurd ht.2.1.workReq hno
  | lost k => exact absurd ht.2.1.workReq hno
  | parked k => exact absurd ht.2.2.2.1 hno
  | native k => exact ⟨k, ht⟩

/-- The worker has run. -/
theorem Control.work (h : c.Control) {w : WorkData} (hw : c.ctx.workReq = some w)
    {ctx : VcdCtx σ} {calls : List Call}
    (hp : VcdCtx.Processed c.ctx w.data w.isLast ctx calls) :
    (({ c with ctx := { ctx with workDone := true } } : Core σ).note (.work calls)).Control := by
  obtain ⟨k, ht⟩ := h.native (by simp [hw])
  obtain ⟨-, hf, hn⟩ := h
  obtain ⟨h1, h2, h3, h4, h5, h6, h7, h8⟩ := ht
  have hpend : ctx.pendingClose = c.ctx.pendingClose := hp.pendingClose
  have hwip : ctx.writeInProgress = c.ctx.writeInProgress := hp.writeInProgress
  have hcoder : c.ctx.coder.isSome := hf.coder (by rw [hf.inProgress, hw]; rfl)
  refine ⟨⟨.native k, h1, h2, h3, by simp [note, hp.workReq, hw], h5, h6,
    fun hne => by simp [note] at hne, ?_⟩, ?_, ?_⟩
  · cases k <;> exact h8
  · exact { hf with
      opened := fun hcl => ⟨hp.coder, hpend.trans (hf.opened hcl).2⟩
      inProgress := by
        simp only [note, hp.workReq]
        rw [hwip, hf.inProgress]
      coder := fun _ => hp.coder
      pending := fun hne => by
        simp only [note] at hne ⊢
        rw [hpend] at hne
        rw [hwip]
        exact hf.pending hne }
  · have hc : ctx.coder ≠ none := fun hne => by simpa [hne] using hp.coder
    have hc' : c.ctx.coder ≠ none := fun hne => by simp [hne] at hcoder
    refine hn.append [.work calls] rfl (by simp [Event.isNeutral]) rfl id hpend
      (iff_of_false hc hc') fun hcl heof hfree => ?_
    rw [hfree.workReq] at hw
    cases hw

/-- `AfterShim` reports a failure. -/
theorem Control.report (h : c.Control) (hw : c.ctx.workReq.isSome)
    (he : c.ctx.hasError = true) (hs : c.afterShim = 0) (hs' : c.sendError = 0) :
    c.report.Control := by
  obtain ⟨k, ht⟩ := h.native hw
  obtain ⟨-, hf, hn⟩ := h
  obtain ⟨h1, h2, h3, h4, h5, h6, h7, h8⟩ := ht
  have hwip : c.ctx.writeInProgress = true := by rw [hf.inProgress, hw]; rfl
  refine ⟨⟨.lost k, h1, ⟨h2, h3, rfl⟩, rfl, ?_, ?_⟩, ?_, ?_⟩
  · simpa [VcdCtx.hasError, Core.report, note] using he
  · cases k <;> exact h8
  · exact { hf with
      handle := rfl
      inProgress := by simp [Core.report, note, hwip]
      shims := by simp [Core.report, note, hs, hs']
      sendError := fun _ => rfl }
  · refine hn.append [_] rfl (by simp [Event.isNeutral]) rfl id rfl Iff.rfl fun _ b f => ?_
    exact ⟨b, h2, h3, rfl⟩

/-- `AfterShim` delivers the output. -/
theorem Control.deliver (h : c.Control) {k : TransformCb} (hw : c.ctx.workReq.isSome)
    (he : c.ctx.hasError = false) (hk : c.callback = some k) (hs : c.afterShim = 0)
    (hs' : c.sendError = 0) : (c.deliver k).Control := by
  obtain ⟨k', ht⟩ := h.native hw
  obtain ⟨-, hf, hn⟩ := h
  obtain ⟨h1, h2, h3, h4, h5, h6, h7, h8⟩ := ht
  obtain rfl : k = k' := Option.some.inj (hk.symm.trans h5)
  have href : ¬ c.log.Refused := fun hm => by
    rw [(hn.refused hm).2.2.workReq] at hw
    cases hw
  have herr : c.ctx.err = .ok := by simpa [VcdCtx.hasError] using he
  refine ⟨⟨.parked k, ?_, ?_, ?_, ?_, ?_, ?_, ?_⟩, ?_, ?_⟩
  · cases k <;> exact h1
  · cases k <;> simp [Core.deliver, park, note, h2]
  · cases k <;> simp [Core.deliver, park, note, h3]
  · cases k <;> rfl
  · cases k <;> exact h6
  · cases k <;> exact herr
  · cases k <;> exact h8
  · cases k <;> exact { hf with
      inProgress := by simp [Core.deliver, park, note, VcdCtx.finishWrite, hs']
      coder := fun hne => by simp [Core.deliver, park, note, VcdCtx.finishWrite] at hne
      pending := fun _ => .inr (by simp [Core.deliver, park, note])
      shims := by simp [Core.deliver, park, note, hs, hs'] }
  · cases k <;> exact hn.append [_] rfl (by simp [Event.isNeutral]) rfl id rfl Iff.rfl
      fun hcl heof hfree => by simp [hfree.workReq] at hw

theorem Control.afterCallback (h : c.Control) (hs : 0 < c.afterShim) :
    ({ c with afterShim := c.afterShim - 1, ctx := c.ctx.afterCallback } : Core σ).Control := by
  obtain ⟨⟨t, ht⟩, hf, hn⟩ := h
  have hshim : c.afterShim = 1 ∧ c.sendError = 0 := by have := hf.shims; omega
  cases hp : c.ctx.pendingClose with
  | false =>
    have heq : c.ctx.afterCallback = c.ctx := by simp [VcdCtx.afterCallback, hp]
    rw [heq]
    refine ⟨⟨t, ht.congr rfl rfl rfl rfl rfl rfl rfl id rfl rfl rfl rfl⟩, ?_, ?_⟩
    · exact { hf with
        pending := fun hne => by simp [hp] at hne
        shims := by simp [hshim] }
    · exact hn.append [] rfl (by simp) rfl id rfl Iff.rfl
        fun _ b f => ⟨b, f.1, f.2, f.3⟩
  | true =>
    have hcl : c.closed = true := by
      by_contra hne
      simp [(hf.opened (Bool.eq_false_iff.mpr hne)).2] at hp
    cases hwip : c.ctx.writeInProgress with
    | true =>
      have heq : c.ctx.afterCallback = c.ctx := by
        unfold VcdCtx.afterCallback VcdCtx.close
        rw [if_pos hp, if_pos hwip, ← hp]
      rw [heq]
      refine ⟨⟨t, ht.congr rfl rfl rfl rfl rfl rfl rfl id rfl rfl rfl rfl⟩, ?_, ?_⟩
      · exact { hf with
          pending := fun _ => .inl hwip
          shims := by simp [hshim] }
      · exact hn.append [] rfl (by simp) rfl id rfl Iff.rfl
          fun _ b f => ⟨b, f.1, f.2, f.3⟩
    | false =>
      have heq : c.ctx.afterCallback = c.ctx.reset := by
        simp [VcdCtx.afterCallback, hp, VcdCtx.close, hwip]
      rw [heq]
      refine ⟨⟨t, ht.congr rfl rfl rfl rfl rfl rfl rfl id rfl rfl rfl rfl⟩, ?_, ?_⟩
      · exact { hf with
          opened := fun hne => by simp [hcl] at hne
          inProgress := hwip.symm.trans hf.inProgress
          coder := fun hne => by simp [VcdCtx.reset] at hne
          pending := fun hne => by simp [VcdCtx.reset] at hne
          shims := by simp [hshim] }
      · exact ⟨fun _ => .inr rfl, hn.closed, hn.ended,
          fun hm => (hn.refused hm).imp_right (And.imp_right fun f => ⟨f.1, f.2, f.3⟩)⟩

theorem Control.afterOnerror (h : c.Control) (hs : 0 < c.sendError) :
    ({ c with sendError := c.sendError - 1, ctx := c.ctx.afterOnerror } : Core σ).Control := by
  obtain ⟨⟨t, ht⟩, hf, hn⟩ := h
  have hshim : c.sendError = 1 ∧ c.afterShim = 0 := by have := hf.shims; omega
  have hw : c.ctx.workReq = none := by
    have hh := hf.sendError hs
    cases t with
    | lost k => exact ht.2.1.workReq
    | rest => simp [ht.2.2.2.1] at hh
    | called call => simp [ht.2.2.2.1] at hh
    | parked k => simp [ht.2.2.2.2.1] at hh
    | native k => simp [ht.2.2.2.2.2.1] at hh
  have hclosed : c.ctx.pendingClose = true → c.closed = true := fun hp => by
    by_contra hne
    simp [(hf.opened (Bool.eq_false_iff.mpr hne)).2] at hp
  have heq : c.ctx.afterOnerror =
      if c.ctx.pendingClose then c.ctx.reset else { c.ctx with writeInProgress := false } := by
    simp only [VcdCtx.afterOnerror, VcdCtx.close]
    split <;> rfl
  have hx := VcdCtx.sameWork_afterOnerror c.ctx
  refine ⟨⟨t, ht.congr rfl rfl rfl hx.workReq rfl rfl hx.err id rfl rfl rfl hx.workDone⟩, ?_, ?_⟩
  · rw [heq]
    split
    · next hp =>
      exact { hf with
        opened := fun hne => by simp [hclosed hp] at hne
        inProgress := by simp [VcdCtx.reset, hw, hshim]
        coder := fun hne => by simp [VcdCtx.reset] at hne
        pending := fun hne => by simp [VcdCtx.reset] at hne
        shims := by simp [hshim]
        sendError := fun hne => by simp [hshim] at hne }
    · next hp =>
      exact { hf with
        inProgress := by simp [hw, hshim]
        coder := fun hne => by simp at hne
        pending := fun hne => by simp [hp] at hne
        shims := by simp [hshim]
        sendError := fun hne => by simp [hshim] at hne }
  · refine ⟨fun hm => ?_, hn.closed, hn.ended,
      fun hm => (hn.refused hm).imp_right (And.imp_right fun f => ⟨f.1, f.2, hx.workReq.trans f.3⟩)⟩
    rw [heq]
    split
    · exact .inr rfl
    · next hp => exact (hn.requested hm).imp_left fun hpp => absurd hpp hp

end Core

end NodeVcdiff
