import NodeVcdiff.OneShot

/-!
# Closing

What `close` does shows in two flags, in the ticks it queues and in the events they lead to.
Every other method leaves them alone, only `onerror` takes the handle away.
-/

namespace NodeVcdiff

open Script (Number)
open Transition (Reaches anyStep Inevitable)

/-- The events of closing. -/
def Event.isClosing : Event → Bool
  | .close | .closeThrew | .nativeClose | .closeCb _ | .closeEvent => true
  | _ => false

/-- The ticks queued by `close`. -/
def Tick.isClosing : Tick → Bool
  | .closeCb _ | .emitClose => true
  | _ => false

/-- What a tick of `close` notes. -/
def Tick.closingEvent : Tick → Event
  | .closeCb id => .closeCb id
  | _ => .closeEvent

/-- The part of a stream that closing is about. -/
structure Shutter where
  closed : Bool
  handle : Bool
  nextClose : ℕ
  ticks : List Tick
  log : History

namespace Shutter

def note (e : Event) (v : Shutter) : Shutter := { v with log := e :: v.log }

/-- `Vcdiff.prototype.close` -/
def close (callback : Option ℕ) (v : Shutter) : Shutter :=
  let v := { v.note .close with ticks := v.ticks ++ callback.toList.map Tick.closeCb }
  if v.closed then v
  else if v.handle then
    { v.note .nativeClose with closed := true, ticks := v.ticks ++ [.emitClose] }
  else { v.note .closeThrew with closed := true }

/-- The first tick runs. -/
def fire (t : Tick) (v : Shutter) : Shutter :=
  { v.note t.closingEvent with ticks := v.ticks.tail }

end Shutter

namespace Engine

variable {σ : Type*} {K : Coder σ} {s s' : Engine σ}

def shutter (s : Engine σ) : Shutter where
  closed := s.vcd.closed
  handle := s.vcd.handle
  nextClose := s.nextClose
  ticks := s.ticks.filter Tick.isClosing
  log := s.log.filter Event.isClosing

/-! ## What leaves the shutter alone -/

theorem shutter_emit {e : Event} (he : e.isClosing = false) : (s.emit e).shutter = s.shutter := by
  simp [shutter, emit, he]

theorem shutter_note {e : Event} (he : e.isClosing = false) : (s.note e).shutter = s.shutter := by
  simp [shutter, note, he]

theorem shutter_nextTick {t : Tick} (ht : t.isClosing = false) :
    (s.nextTick t).shutter = s.shutter := by
  simp [shutter, nextTick, ht]

@[simp] theorem shutter_callUser (callback : Option ℕ) (ok : Bool) :
    (s.callUser callback ok).shutter = s.shutter := by
  cases callback
  · rfl
  · exact shutter_emit rfl

@[simp] theorem shutter_writeOrBuffer (req : WriteReq) :
    (s.writeOrBuffer req).shutter = s.shutter := by
  by_cases hw : s.ws.writing.isSome <;>
    simp [writeOrBuffer, hw, shutter, doWrite, Event.isClosing]

@[simp] theorem shutter_write (req : WriteReq) : (s.write req).shutter = s.shutter := by
  unfold Engine.write
  split
  · rw [shutter_nextTick rfl, shutter_emit rfl]
  · exact shutter_writeOrBuffer req

@[simp] theorem shutter_flush (callback : Option ℕ) : (s.flush callback).shutter = s.shutter := by
  unfold Engine.flush
  split
  · cases callback
    · rfl
    · exact shutter_nextTick rfl
  · split
    · cases callback <;> rfl
    · split
      · rfl
      · exact shutter_write _

@[simp] theorem shutter_endWritable : s.endWritable.shutter = s.shutter := by
  unfold Engine.endWritable
  split <;> rfl

@[simp] theorem shutter_onwrite (er : Option ErrorObject) (sync : Bool) :
    (s.onwrite er sync).shutter = s.shutter := by
  unfold onwrite
  split
  · rfl
  · rcases er with _ | e
    · dsimp only
      split <;> rfl
    · dsimp only
      split
      · rw [shutter_emit rfl, shutter_nextTick rfl]; rfl
      · rw [shutter_callUser]; rfl

@[simp] theorem shutter_transformCb (k : TransformCb) (er : Option ErrorObject) (sync : Bool) :
    (s.transformCb k er sync).shutter = s.shutter := by
  have hn : (s.note (.transformCb k er.isNone)).shutter = s.shutter := shutter_note rfl
  rcases k with _ | _
  · simp only [transformCb, shutter_onwrite]
    exact hn
  · rcases er with _ | e
    · simp only [transformCb]
      rw [shutter_emit rfl]
      exact hn
    · simp only [transformCb]
      rw [shutter_emit rfl, hn]

@[simp] theorem shutter_processChunk (chunk : Buffer) (l ff : Bool) (k : TransformCb) :
    (s.processChunk chunk l ff k).shutter = s.shutter := by
  have htake : ({ s with
      vcd.nread := s.vcd.nread + chunk.length
      vcd.buffers := s.vcd.buffers ++ [chunk]
      log := .take chunk :: s.log } : Engine σ).shutter = s.shutter := by
    simp [shutter, Event.isClosing]
  unfold processChunk nativeWrite
  dsimp only
  split
  · split
    · exact htake
    · split
      · exact htake
      · rw [shutter_note rfl]; exact htake
  · rw [shutter_nextTick rfl]; exact htake

@[simp] theorem shutter_transform (chunk : Buffer) (isBuffer sync : Bool) (k : TransformCb) :
    (s.transform chunk isBuffer sync k).shutter = s.shutter := by
  unfold transform
  dsimp only
  split
  · exact shutter_transformCb _ _ _
  · rw [shutter_processChunk]
    split <;> rfl

@[simp] theorem shutter_runCalling (c : Calling) : (s.runCalling c).shutter = s.shutter := by
  cases c with
  | transform sync =>
    simp only [runCalling]
    split
    · exact shutter_transform _ _ _ _
    · rfl
  | flush => exact shutter_transform _ _ _ _

@[simp] theorem shutter_runFrame (f : Frame) : (s.runFrame f).shutter = s.shutter := by
  cases f with
  | user | ended | afterShim | sendError => rfl
  | cb k => exact shutter_transformCb _ _ _
  | clearBuffer =>
    simp only [runFrame]
    split <;> rfl
  | afterWrite finished callback =>
    simp only [runFrame]
    split <;> rfl
  | drain listeners =>
    cases listeners with
    | nil => rfl
    | cons callback rest => exact shutter_flush callback
  | writeCb callback => exact shutter_callUser _ _
  | finishMaybe =>
    simp only [runFrame]
    split <;> rfl
  | emitError e => exact shutter_emit rfl
  | endListeners ids =>
    cases ids with
    | nil => rfl
    | cons id ids => exact shutter_callUser _ _

/-! ## The steps of the shutter -/

theorem shutter_close (callback : Option ℕ) :
    (s.close callback).shutter = s.shutter.close callback := by
  cases callback <;> cases hc : s.vcd.closed <;> cases hh : s.vcd.handle <;>
    simp [Engine.close, hc, hh, shutter, Shutter.close, Shutter.note, note, nextTick,
      Event.isClosing, Tick.isClosing, List.filter_cons]

theorem shutter_emitEnd : s.emitEnd.shutter = s.shutter.close none := by
  unfold emitEnd
  rw [shutter_close]
  simp [shutter, Event.isClosing]

/-- A tick of `close` runs. -/
theorem shutter_runTick {t : Tick} {ts : List Tick} (ht : s.ticks = t :: ts) :
    (({ s with ticks := ts } : Engine σ).runTick t).shutter =
      if t.isClosing then s.shutter.fire t else s.shutter := by
  have hsame : t.isClosing = false → ({ s with ticks := ts } : Engine σ).shutter = s.shutter := by
    intro h
    simp [shutter, ht, h]
  cases t with
  | transformCb k => exact (shutter_transformCb _ _ _).trans (hsame rfl)
  | flushCb id => exact (shutter_callUser _ _).trans (hsame rfl)
  | writeError callback => exact (shutter_callUser _ _).trans (hsame rfl)
  | closeCb id | emitClose =>
    simp [runTick, emit, shutter, Shutter.fire, Shutter.note, Tick.closingEvent, ht,
      Tick.isClosing, Event.isClosing, List.filter_cons]

end Engine

/-- The steps of a shutter, by what the stream does. -/
inductive Shutter.Step (v : Shutter) : Engine.Act → Shutter → Prop where
  | same {a : Engine.Act} : (∀ b, a ≠ .close b) → Step v a v
  | lose : Step v .afterShim { v with handle := false }
  | fire {t : Tick} {ts : List Tick} : v.ticks = t :: ts → t.isClosing = true →
      Step v .tick (v.fire t)
  | close : Step v (.close false) (v.close none)
  | closeCb : Step v (.close true) ({ v with nextClose := v.nextClose + 1 }.close (some v.nextClose))
  | emitEnd : Step v .emitEnd (v.close none)

namespace Engine

variable {σ : Type*} {K : Coder σ} {s s' s₀ : Engine σ} {a : Act}

theorem shutter_userCall (a : Act) (hu : a.byUser = true) :
    s.shutter.Step a (s.userCall a).shutter := by
  have same : ∀ {t : Engine σ}, t.shutter = s.shutter → (∀ b, a ≠ .close b) →
      s.shutter.Step a t.shutter := fun h ha => h ▸ .same ha
  cases a with
  | write chunk => exact same (shutter_write _) (by simp)
  | flush hasCallback =>
    cases hasCallback
    · exact same (shutter_flush _) (by simp)
    · refine same ((shutter_flush _).trans ?_) (by simp)
      exact shutter_note rfl
  | endWritable => exact same shutter_endWritable (by simp)
  | close hasCallback =>
    cases hasCallback
    · exact shutter_close none ▸ .close
    · exact shutter_close (s := { s with nextClose := s.nextClose + 1 }) (some s.nextClose) ▸
        .closeCb
  | demand | read => exact same rfl (by simp)
  | work | afterShim | tick | emitEnd | run => cases hu

/-- What a step does to the shutter. -/
theorem shutter_step (h : step K s a = some s') : s.shutter.Step a s'.shutter := by
  have same : ∀ {t : Engine σ}, t.shutter = s.shutter → (∀ b, a ≠ .close b) →
      s.shutter.Step a t.shutter := fun h ha => h ▸ .same ha
  obtain ⟨-, hm⟩ := step_moves h
  cases hm with
  | work => exact same (shutter_note rfl) (by simp)
  | workFail => exact same rfl (by simp)
  | afterShim =>
    unfold afterShim
    dsimp only
    split
    · unfold onerror
      rw [shutter_emit rfl]
      exact .lose
    · split
      · refine same ?_ (by simp)
        unfold callback
        split
        · rfl
        · exact shutter_emit rfl
      · exact same rfl (by simp)
  | @tick t ts ht =>
    rw [shutter_runTick ht]
    split
    · next hcl =>
      have hticks : s.shutter.ticks = t :: ts.filter Tick.isClosing := by
        simp [shutter, ht, hcl]
      exact .fire hticks hcl
    · exact .same (by simp)
  | emitEnd => exact shutter_emitEnd ▸ .emitEnd
  | calling => exact same (shutter_runCalling _) (by simp)
  | frame => exact same (shutter_runFrame _) (by simp)
  | user _ _ hu => exact shutter_userCall a hu

end Engine

namespace Shutter

variable {v v' : Shutter} {a : Engine.Act}

/-- Closing so far has done what it is to do. -/
structure Orderly (v : Shutter) : Prop where
  returns : .closeThrew ∉ v.log
  native : v.log.count .nativeClose = if v.closed then 1 else 0
  callbacks : ∀ id, v.log.count (.closeCb id) + v.ticks.count (.closeCb id) =
    if id < v.nextClose then 1 else 0
  event : v.log.count .closeEvent + v.ticks.count .emitClose = if v.closed then 1 else 0
  noted : v.closed = true ↔ .close ∈ v.log

/-- A close that finds the handle, or has nothing left to do. -/
theorem Orderly.close (h : v.Orderly) (hh : v.closed = true ∨ v.handle = true) :
    (v.close none).Orderly := by
  obtain ⟨h1, h2, h3, h4, h5⟩ := h
  cases hc : v.closed with
  | true =>
    simp only [hc, if_true] at h2 h4
    constructor <;> simp [Shutter.close, note, hc, h1, h2, h3, h4]
  | false =>
    have hhandle : v.handle = true := hh.resolve_left (by simp [hc])
    have hlog : .close ∉ v.log := fun hm => by simp [h5.mpr hm] at hc
    simp only [hc, Bool.false_eq_true, if_false] at h2 h4
    constructor
    · simp [Shutter.close, note, hc, hhandle, h1]
    · simp [Shutter.close, note, hc, hhandle, h2]
    · intro id
      have := h3 id
      simpa [Shutter.close, note, hc, hhandle] using this
    · simp [Shutter.close, note, hc, hhandle]
      omega
    · simp [Shutter.close, note, hc, hhandle]

theorem close_some (id : ℕ) (v : Shutter) :
    v.close (some id) = ({ v with ticks := v.ticks ++ [.closeCb id] } : Shutter).close none := by
  simp [Shutter.close, note]

/-- A callback is queued. -/
theorem Orderly.queue (h : v.Orderly) : ({ v with
    nextClose := v.nextClose + 1
    ticks := v.ticks ++ [.closeCb v.nextClose] } : Shutter).Orderly := by
  obtain ⟨h1, h2, h3, h4, h5⟩ := h
  refine ⟨h1, h2, fun id => ?_, ?_, h5⟩
  · have hid := h3 id
    by_cases heq : id = v.nextClose
    · subst heq
      rw [if_neg (by omega)] at hid
      simp only [List.count_append, List.count_singleton_self]
      rw [if_pos (by omega)]
      omega
    · have hne : List.count (Tick.closeCb id) [Tick.closeCb v.nextClose] = 0 := by
        rw [List.count_eq_zero]
        simpa using heq
      simp only [List.count_append, hne, Nat.add_zero, hid]
      by_cases hlt : id < v.nextClose
      · rw [if_pos hlt, if_pos (by omega)]
      · rw [if_neg hlt, if_neg (by omega)]
  · simpa using h4

/-- A queued tick runs. -/
theorem Orderly.fire (h : v.Orderly) {t : Tick} {ts : List Tick} (ht : v.ticks = t :: ts)
    (hcl : t.isClosing = true) : (v.fire t).Orderly := by
  obtain ⟨h1, h2, h3, h4, h5⟩ := h
  rw [ht] at h3 h4
  cases t with
  | closeCb i =>
    refine ⟨by simpa [Shutter.fire, note, Tick.closingEvent] using h1,
      (List.count_cons_of_ne (by simp [Tick.closingEvent])).trans h2, fun id => ?_, ?_,
      by simpa [Shutter.fire, note, Tick.closingEvent] using h5⟩
    · have hid := h3 id
      by_cases heq : i = id
      · subst heq
        simp [Shutter.fire, note, Tick.closingEvent, ht] at hid ⊢
        omega
      · simp [Shutter.fire, note, Tick.closingEvent, ht, heq] at hid ⊢
        exact hid
    · simpa [Shutter.fire, note, Tick.closingEvent, ht] using h4
  | emitClose =>
    refine ⟨by simpa [Shutter.fire, note, Tick.closingEvent] using h1,
      (List.count_cons_of_ne (by simp [Tick.closingEvent])).trans h2, fun id => ?_, ?_,
      by simpa [Shutter.fire, note, Tick.closingEvent] using h5⟩
    · simpa [Shutter.fire, note, Tick.closingEvent, ht] using h3 id
    · simp [Shutter.fire, note, Tick.closingEvent, ht] at h4 ⊢
      omega
  | transformCb | flushCb | writeError => cases hcl

/-- Without a handle the first close throws. -/
theorem close_throws (callback : Option ℕ) (hc : v.closed = false) (hh : v.handle = false) :
    .closeThrew ∈ (v.close callback).log := by
  simp [Shutter.close, note, hc, hh]

end Shutter

namespace Engine

variable {σ : Type*} {K : Coder σ} {s s' s₀ : Engine σ} {a : Act} {mode : Mode} {m : Number}
  {h : ℤ} {x : σ}

/-- No call of `close` throws, the callbacks of all calls are called once each, the native
close is requested once at most, and 'close' is emitted once behind the first call; a call
counts as made while it waits in the tick queue. -/
structure ClosedInOrder (s : Engine σ) : Prop where
  returns : .closeThrew ∉ s.log
  native : s.log.count .nativeClose ≤ 1
  callbacks : ∀ id < s.nextClose, s.log.count (.closeCb id) + s.ticks.count (.closeCb id) = 1
  event : s.log.count .closeEvent + s.ticks.count .emitClose = if .close ∈ s.log then 1 else 0

/-- The stream is closed already, or still has its handle. -/
def Act.canClose (s : Engine σ) : Act → Prop
  | .close _ => s.vcd.closed = true ∨ s.vcd.handle = true
  | _ => True

instance (s : Engine σ) (a : Act) : Decidable (a.canClose s) :=
  match a with
  | .close _ => inferInstanceAs (Decidable (_ ∨ _))
  | .write _ | .flush _ | .endWritable | .demand _ | .read | .work | .afterShim | .tick
  | .emitEnd | .run => .isTrue trivial

theorem count_shutter {e : Event} (he : e.isClosing = true) :
    s.shutter.log.count e = s.log.count e := List.count_filter he

theorem count_shutter_ticks {t : Tick} (ht : t.isClosing = true) :
    s.shutter.ticks.count t = s.ticks.count t := List.count_filter ht

theorem mem_shutter {e : Event} (he : e.isClosing = true) : e ∈ s.shutter.log ↔ e ∈ s.log := by
  simp [shutter, he]

theorem ClosedInOrder.of_shutter (h : s.shutter.Orderly) : s.ClosedInOrder where
  returns := fun hm => h.returns ((mem_shutter rfl).mpr hm)
  native := by
    have := h.native
    rw [count_shutter rfl] at this
    rw [this]
    split <;> omega
  callbacks := fun id hid => by
    have := h.callbacks id
    rw [count_shutter rfl, count_shutter_ticks rfl] at this
    exact this.trans (if_pos hid)
  event := by
    have := h.event
    rw [count_shutter rfl, count_shutter_ticks rfl] at this
    rw [this]
    exact if_congr (h.noted.trans (mem_shutter rfl)) rfl rfl

/-- One step, when the handle is there at 'end'. -/
theorem orderly_step (h : s.shutter.Orderly) (hs : step K s a = some s')
    (hend : a = .emitEnd → s.vcd.closed = true ∨ s.vcd.handle = true) :
    (a.canClose s → s'.shutter.Orderly) ∧ (¬ a.canClose s → .closeThrew ∈ s'.log) := by
  have hthrow : ∀ {v : Shutter} (callback : Option ℕ), s'.shutter = v.close callback →
      ¬ (v.closed = true ∨ v.handle = true) → .closeThrew ∈ s'.log := by
    intro v callback heq hno
    simp only [not_or, Bool.not_eq_true] at hno
    rw [← mem_shutter (s := s') rfl, heq]
    exact Shutter.close_throws callback hno.1 hno.2
  generalize hv : s'.shutter = v' at hthrow
  have hst := shutter_step hs
  rw [hv] at hst
  cases hst with
  | same ha =>
    refine ⟨fun _ => h, fun hno => absurd ?_ hno⟩
    cases a with
    | close b => exact absurd rfl (ha b)
    | _ => trivial
  | lose => exact ⟨fun _ => ⟨h.1, h.2, h.3, h.4, h.5⟩, fun hno => absurd trivial hno⟩
  | fire ht hcl => exact ⟨fun _ => h.fire ht hcl, fun hno => absurd trivial hno⟩
  | close => exact ⟨fun hc => h.close hc, fun hno => hthrow none rfl hno⟩
  | closeCb =>
    refine ⟨fun hc => ?_, fun hno => hthrow _ rfl hno⟩
    rw [Shutter.close_some]
    exact h.queue.close hc
  | emitEnd => exact ⟨fun _ => h.close (hend rfl), fun hno => absurd trivial hno⟩

/-- At 'end' nothing has failed, and the handle is there. -/
theorem Invariant.handle_at_end (hi : s.Invariant) (he : s.rs.ended = true) :
    s.vcd.handle = true := by
  obtain ⟨-, -, -, hh, -⟩ := hi.sound.control.eof he
  have hhandle : s.vcd.handle = !s.vcd.hadError := hi.sound.control.flags.handle
  rw [hhandle, show s.vcd.hadError = false from hh]
  rfl

theorem step_closed (h : step K s a = some s') (hc : s.vcd.closed = true) :
    s'.vcd.closed = true := by
  have hv : s.shutter.closed = true := hc
  show s'.shutter.closed = true
  have hst := shutter_step h
  generalize s'.shutter = v' at hst
  cases hst with
  | same => exact hv
  | lose => exact hv
  | fire => exact hv
  | close | closeCb | emitEnd => simp [Shutter.close, Shutter.note, hv]

/-- The streams a caller starts with: a new one, or one on which a synchronous call has
succeeded. -/
inductive Starts (K : Coder σ) (s₀ : Engine σ) : Prop where
  | fresh {mode : Mode} {m : Number} {h : ℤ} {x : σ} : s₀ = .init mode m h x → Starts K s₀
  | synced {mode : Mode} {m : Number} {h : ℤ} {x : σ} {input : Input} {out : Buffer} :
      vcdiffBufferSync K (.init mode m h x) input = (s₀, .returned out) → Starts K s₀

theorem Starts.orderly (h0 : Starts K s₀) : s₀.shutter.Orderly ∧
    ((∃ mode m h x, s₀ = .init mode m h x) ∨ s₀.vcd.closed = true) := by
  have hinit : ∀ {mode : Mode} {m : Number} {h : ℤ} {x : σ},
      (Engine.init mode m h x).shutter.Orderly := by
    intro mode m h x
    constructor <;> simp [shutter, init]
  cases h0 with
  | fresh heq => exact ⟨heq ▸ hinit, .inl ⟨_, _, _, _, heq⟩⟩
  | @synced mode m h x input out hsync =>
    unfold vcdiffBufferSync processChunkSync at hsync
    split at hsync
    · cases hsync
    · split at hsync
      · cases hsync
      · cases hsync
      · next ctx calls o finished _ =>
        dsimp only at hsync
        split at hsync
        · obtain ⟨rfl, -⟩ := Prod.mk.inj hsync
          have hv : ({ (Engine.init mode m h x) with
              ctx
              log := .work calls :: .nativeWrite true input.bytes :: [] } : Engine σ).shutter.Orderly :=
            by constructor <;> simp [shutter, init, Event.isClosing]
          rw [shutter_close]
          refine ⟨hv.close (.inr rfl), .inr ?_⟩
          rfl
        · cases hsync

/-- At 'end' a stream is closed already, or still has its handle. -/
theorem handle_at_end {ok : Engine σ → Act → Prop} (hr : Reaches (step K) ok s₀ s)
    (h0 : (∃ mode m h x, s₀ = .init mode m h x) ∨ s.vcd.closed = true)
    (hs : step K s .emitEnd = some s') : s.vcd.closed = true ∨ s.vcd.handle = true := by
  rcases h0 with ⟨mode, m, h, x, rfl⟩ | hc
  · obtain ⟨-, hm⟩ := step_moves hs
    cases hm with
    | emitEnd _ he => exact .inr ((Invariant.reaches hr).handle_at_end he)
    | user _ _ hu => cases hu
  · exact .inl hc

theorem Starts.orderly_run (h0 : Starts K s₀)
    (hr : Reaches (step K) (fun s a => a.canClose s) s₀ s) : s.shutter.Orderly ∧
      ((∃ mode m h x, s₀ = .init mode m h x) ∨ s.vcd.closed = true) := by
  induction hr with
  | refl => exact h0.orderly
  | tail hr hok hs ih =>
    obtain ⟨ho, hst⟩ := ih
    refine ⟨(orderly_step ho hs fun ha => ?_).1 hok, hst.imp_right (step_closed hs)⟩
    subst ha
    exact handle_at_end hr hst hs

/-- Closing is safe and idempotent, as long as a failed write has not taken the handle away
from a stream that is then closed for the first time. -/
theorem close_once (h0 : Starts K s₀) (hr : Reaches (step K) (fun s a => a.canClose s) s₀ s) :
    s.ClosedInOrder ∧
    (∀ a s', step K s a = some s' → (s'.ClosedInOrder ↔ a.canClose s)) ∧
    ((∃ mode m h x, s₀ = .init mode m h x) →
      Inevitable (Progress K) (fun t => t.ticks = [] ∧ t.ClosedInOrder) s) := by
  obtain ⟨ho, hst⟩ := h0.orderly_run hr
  refine ⟨.of_shutter ho, fun a s' hs => ⟨fun hc => ?_, fun hok => ?_⟩, ?_⟩
  · by_contra hno
    refine hc.returns ((orderly_step ho hs fun ha => ?_).2 hno)
    subst ha
    exact absurd trivial hno
  · exact .of_shutter (h0.orderly_run (hr.tail hok hs)).1
  · rintro ⟨mode, m, h, x, rfl⟩
    refine (Invariant.reaches hr).comes_to_rest.imp fun t ⟨hq, _, hown⟩ => ⟨hq.ticks, ?_⟩
    have hrun : Reaches (step K) (fun s a => a.canClose s) (init mode m h x) t :=
      hr.trans (hown.mono fun t a ha => by cases a <;> trivial)
    exact .of_shutter (h0.orderly_run hrun).1

/-- Closed twice with a callback while a write is in flight. -/
theorem close_once_copy : ∃ s, Reaches (step copyCoder) (fun s a => a.canClose s)
      (init .decode (minEncodeWindowSizeOf none) 16384 ()) s ∧ s.nextClose = 2 ∧
    Inevitable (Progress copyCoder) (fun t => t.ticks = [] ∧ t.ClosedInOrder) s := by
  have hrun : ∃ s, Reaches (step copyCoder) (fun s a => a.canClose s)
      (init .decode (minEncodeWindowSizeOf none) 16384 ()) s ∧ s.nextClose = 2 :=
    Transition.exists_reaches [.write [1], .run, .close true, .work, .close true]
      (by decide +kernel)
  obtain ⟨s, hr, hn⟩ := hrun
  exact ⟨s, hr, hn, (close_once (.fresh rfl) hr).2.2 ⟨_, _, _, _, rfl⟩⟩

/-- Closed in the 'error' event of a failed write: the call throws, and 'close' never comes. -/
theorem close_throws_after_error : ∃ s, Reaches (step brokenCoder) anyStep
      (init .decode (minEncodeWindowSizeOf none) 16384 ()) s ∧ .closeThrew ∈ s.log ∧
    s.ticks = [] ∧ s.stack = [] ∧ .closeEvent ∉ s.log ∧ ¬ s.ClosedInOrder := by
  have hrun : ∃ s, Reaches (step brokenCoder) anyStep
      (init .decode (minEncodeWindowSizeOf none) 16384 ()) s ∧ .closeThrew ∈ s.log ∧
      s.ticks = [] ∧ s.stack = [] ∧ .closeEvent ∉ s.log :=
    Transition.exists_reaches [.write [1], .run, .work, .afterShim, .close true, .run, .tick, .run,
      .run] (by decide +kernel)
  obtain ⟨s, hr, ht, hk, hst, he⟩ := hrun
  exact ⟨s, hr, ht, hk, hst, he, fun hc => hc.returns ht⟩

end Engine

end NodeVcdiff
