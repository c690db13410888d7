import NodeVcdiff.Collection
import NodeVcdiff.OneShotReturn
import NodeVcdiff.Places

/-!
# The lifetime of a context

A `VcdCtx` wraps a script object weakly and never takes a reference to it, also not while the
thread pool works for it. It lives as long as roots of the script reach that object.
-/

namespace NodeVcdiff

open Script (Number)
open Transition (Reaches anyStep Inevitable)
open Collection (Collected Reached)
open Engine (copyCoder)

variable {σ : Type*} {K : Coder σ}

/-! ## What keeps a context alive -/

/-- The script objects around a context. -/
inductive Object where
  /-- the stream with its closures and listeners -/
  | stream
  /-- the object that wraps the context -/
  | handle
  deriving DecidableEq

/-- Ticks whose functions are of the library or of Node refer to the stream; a function of the
user need not. -/
def Tick.refersToStream : Tick → Bool
  | .flushCb _ | .closeCb _ => false
  | _ => true

namespace Engine

variable {s s' : Engine σ} {a : Act} {held : Bool}

/-- The roots: references of the user, if they are `held`, running code, ticks, and the handle
scope of `AfterShim`. The queued `uv_work_t` is none. -/
def Root (held : Bool) (s : Engine σ) : Object → Prop
  | .stream => held = true ∨ s.calling.isSome ∨ s.stack ≠ [] ∨
      ∃ t ∈ s.ticks, t.refersToStream = true
  | .handle => .afterShim ∈ s.stack ∨ .sendError ∈ s.stack

/-- The stream refers to the handle until `onerror` lets it go, the handle to the stream through
its handlers. -/
def Refers (s : Engine σ) : Object → Object → Prop
  | .stream, .handle => s.vcd.handle = true
  | .handle, .stream => True
  | _, _ => False

/-- Whether the handle is reached. -/
def handleReached (held : Bool) (s : Engine σ) : Bool :=
  decide (.afterShim ∈ s.stack ∨ .sendError ∈ s.stack) ||
    s.vcd.handle && (held || s.calling.isSome || !s.stack.isEmpty ||
      s.ticks.any Tick.refersToStream)

theorem handleReached_iff :
    s.handleReached held = true ↔ Reached (s.Root held) s.Refers .handle := by
  have hroot : (held || s.calling.isSome || !s.stack.isEmpty ||
      s.ticks.any Tick.refersToStream) = true ↔ s.Root held .stream := by
    simp [Root, or_assoc]
  have hnative : decide (.afterShim ∈ s.stack ∨ .sendError ∈ s.stack) = true ↔
      s.Root held .handle := decide_eq_true_iff
  constructor
  · intro h
    rcases (Bool.or_eq_true _ _).mp h with h | h
    · exact .root (hnative.mp h)
    · obtain ⟨hhandle, hstream⟩ := (Bool.and_eq_true _ _).mp h
      exact .refers (.root (hroot.mp hstream)) hhandle
  · intro h
    -- a stream that is reached through the handle only does not reach it first
    have hor : ∀ o, Reached (s.Root held) s.Refers o →
        s.handleReached held = true ∨ o = .stream ∧ s.Root held .stream := by
      intro o ho
      refine ho.of_closed (P := fun o => s.handleReached held = true ∨
        o = .stream ∧ s.Root held .stream) (fun o hr => ?_) (fun o p hp hop => ?_)
      · cases o with
        | stream => exact .inr ⟨rfl, hr⟩
        | handle => exact .inl (by rw [handleReached, hnative.mpr hr, Bool.true_or])
      · rcases hp with hp | ⟨rfl, hp⟩
        · exact .inl hp
        · cases p with
          | stream => cases hop
          | handle =>
            have hh : s.vcd.handle = true := hop
            exact .inl (by rw [handleReached, hroot.mpr hp, hh]; simp)
    rcases hor _ h with h | ⟨h, -⟩
    · exact h
    · cases h

/-- From `uv_queue_work` to the end of `AfterShim`. -/
def InFlight (s : Engine σ) : Prop :=
  s.ctx.workReq.isSome ∨ .afterShim ∈ s.stack ∨ .sendError ∈ s.stack

/-- A native write keeps its handle. -/
theorem Invariant.handle_of_workReq (h : s.Invariant) (hw : s.ctx.workReq.isSome = true) :
    s.vcd.handle = true := by
  obtain ⟨t, ht⟩ := h.sound.control.turn
  have hw' : s.core.ctx.workReq.isSome = true := hw
  have herr : s.core.hadError = false := by
    cases t with
    | native => exact ht.2.2.2.2.2.1
    | parked => rw [ht.2.2.2.1] at hw'; cases hw'
    | rest | called | lost => 
      rw [ht.2.1.workReq] at hw'
      cases hw'
  have hhandle : s.core.handle = !s.core.hadError := h.sound.control.flags.handle
  rw [herr] at hhandle
  exact hhandle

/-- The step queues a native write. -/
def queuesWork (K : Coder σ) (s : Engine σ) (a : Act) : Bool :=
  (step K s a).any fun s' => s.ctx.workReq.isNone && s'.ctx.workReq.isSome

end Engine

/-! ## A stream and its user -/

/-- A stream, and whether references of the user reach it. -/
structure Holding (σ : Type*) where
  engine : Engine σ
  held : Bool := true

namespace Holding

inductive Act where
  /-- a step of the stream; outside its listeners the user needs a reference to call it -/
  | engine (a : Engine.Act)
  /-- the user drops the last reference -/
  | drop
  /-- a listener keeps the stream it runs for -/
  | hold
  deriving DecidableEq

/-- A listener of the user is running. -/
def listening (h : Holding σ) : Bool :=
  h.engine.calling.isNone && decide (h.engine.stack.head? = some .user)

def step (K : Coder σ) (h : Holding σ) : Act → Option (Holding σ)
  | .engine a =>
    if a.byUser && !h.held && !h.listening then none
    else (h.engine.step K a).map fun engine => { h with engine }
  | .drop => if h.engine.userPoint then some { h with held := false } else none
  | .hold => if h.listening then some { h with held := true } else none

def reached (h : Holding σ) : Bool := h.engine.handleReached h.held

/-- No native write is queued while the user holds no reference, and the user keeps it until the
write is done. -/
def keeps (K : Coder σ) (h : Holding σ) : Act → Prop
  | .engine a => h.held = true ∨ h.engine.queuesWork K a = false
  | .drop => h.engine.ctx.workReq = none
  | .hold => True

instance (h : Holding σ) (a : Act) : Decidable (h.keeps K a) := by
  cases a <;> unfold keeps <;> infer_instance

variable {h h' : Holding σ} {a : Act} {s₀ : Engine σ}

theorem step_cases (hs : h.step K a = some h') :
    (∃ b, a = .engine b ∧ h.engine.step K b = some h'.engine ∧ h'.held = h.held) ∨
    (a = .drop ∧ h' = { h with held := false }) ∨ (a = .hold ∧ h' = { h with held := true }) := by
  cases a with
  | engine b =>
    simp only [Holding.step] at hs
    split at hs
    · cases hs
    · obtain ⟨s, hb, rfl⟩ := Option.map_eq_some_iff.mp hs
      exact .inl ⟨b, rfl, hb, rfl⟩
  | drop =>
    simp only [Holding.step] at hs
    split at hs
    · exact .inr (.inl ⟨rfl, (Option.some.inj hs).symm⟩)
    · cases hs
  | hold =>
    simp only [Holding.step] at hs
    split at hs
    · exact .inr (.inr ⟨rfl, (Option.some.inj hs).symm⟩)
    · cases hs

theorem engine_of_reaches {ok : Holding σ → Act → Prop}
    (hr : Reaches (Holding.step K) ok ⟨s₀, true⟩ h) :
    Reaches (Engine.step K) anyStep s₀ h.engine := by
  induction hr with
  | refl => exact .refl
  | tail _ _ hs ih =>
    rcases step_cases hs with ⟨b, -, hb, -⟩ | ⟨-, rfl⟩ | ⟨-, rfl⟩
    · exact ih.tail trivial hb
    · exact ih
    · exact ih

/-- Where the user keeps to it, no native write is in progress without a reference. -/
theorem held_of_reaches (hs₀ : s₀.ctx.workReq = none)
    (hr : Reaches (Holding.step K) (Holding.keeps K) ⟨s₀, true⟩ h) :
    h.engine.ctx.workReq.isSome → h.held = true := by
  induction hr with
  | refl => intro hw; simp [hs₀] at hw
  | @tail h h' a _ hok hs ih =>
    intro hw
    rcases step_cases hs with ⟨b, rfl, hb, hheld⟩ | ⟨rfl, rfl⟩ | ⟨-, rfl⟩
    · rw [hheld]
      rcases hok with hh | hq
      · exact hh
      · -- the step did not queue the write, so it was in progress before
        apply ih
        simpa [Engine.queuesWork, hb, hw] using hq
    · have hnone : h.engine.ctx.workReq = none := hok
      rw [hnone] at hw
      cases hw
    · rfl

/-- A context with a native write in flight is reached if the user holds the stream. -/
theorem reached_of_inFlight (hi : h.engine.Invariant) (hf : h.engine.InFlight)
    (hheld : h.engine.ctx.workReq.isSome → h.held = true) : h.reached = true := by
  unfold reached Engine.handleReached
  rcases hf with hw | hst
  · rw [hi.handle_of_workReq hw, hheld hw]
    simp
  · rw [decide_eq_true hst, Bool.true_or]

end Holding

/-! ## The asynchronous functions -/

/-- Once the body of an asynchronous call has run, its engine is referred to by its own
listeners only. -/
def VcdiffBuffer.reached (w : VcdiffBuffer σ) : Bool := w.engine.handleReached !w.script.isEmpty

namespace Engine

variable {s s' : Engine σ} {a : Act}

/-- No native write has come back: the first one may be in progress. -/
structure Unreturned (s : Engine σ) : Prop where
  write : .write ∈ s.places.deeds → s.places.inFlight = true
  fail : .fail ∉ s.places.deeds

theorem Unreturned.congr (h : s.Unreturned) (hp : s'.places = s.places) : s'.Unreturned :=
  ⟨by rw [hp]; exact h.write, by rw [hp]; exact h.fail⟩

theorem Unreturned.answer {p : Places} {ok : Bool} (h : s.Unreturned)
    (hp : s'.places = p.add (.answer ok)) (hin : p.inFlight = s.places.inFlight)
    (hd : p.deeds = s.places.deeds) : s'.Unreturned := by
  refine ⟨?_, ?_⟩
  · rw [hp]
    intro hm
    have hmem : .write ∈ p.deeds := by simpa [Places.add] using hm
    exact hin.trans (h.write (hd ▸ hmem))
  · rw [hp]
    intro hm
    have hmem : .fail ∈ p.deeds := by simpa [Places.add] using hm
    exact h.fail (hd ▸ hmem)

/-- Only `AfterShim` brings a native write back. -/
theorem Unreturned.step (h : s.Unreturned) (hi : s.Invariant) (ha : a ≠ .afterShim)
    (hs : step K s a = some s') : s'.Unreturned := by
  have hi' := hi.step hs
  obtain ⟨-, hm⟩ := step_moves hs
  cases hm with
  | @work w ctx calls hw hd hp =>
    exact h.congr (hi.places_work hw hd hp)
  | workFail => exact h.congr rfl
  | afterShim => exact absurd rfl ha
  | @tick t ts ht =>
    cases t with
    | transformCb k =>
      exact h.answer (places_transformCb (s := { s with ticks := ts }) k none false (by simp)) rfl rfl
    | flushCb | writeError | closeCb | emitClose =>
      exact h.congr ((places_runTick rfl).trans (places_popTick ht rfl))
  | emitEnd => exact h.congr places_emitEnd
  | @calling c hc =>
    have hat := hi.sound.control.called (show s.core.calling = some c from hc)
    have hw : c ≠ .flush → s.ws.writing.isSome := by
      cases c with
      | flush => exact fun hne => absurd rfl hne
      | transform sync => exact fun _ => hat.2.2.2.2.2
    cases hcl : s.vcd.closed with
    | true =>
      exact h.answer (places_refused hw hcl) rfl rfl
    | false =>
      cases puts_runCalling hw hcl with
      | failed hf =>
        have hnone : (s.runCalling c).fault = none := hi'.sound.control.flags.fault
        rw [hnone] at hf
        cases hf
      | installed _ hp =>
        refine ⟨fun _ => by rw [hp]; rfl, ?_⟩
        rw [hp]
        intro hm
        exact h.fail (by simpa [Places.add] using hm)
      | queued _ hp => exact ⟨by rw [hp]; exact h.write, by rw [hp]; exact h.fail⟩
  | @frame f fs hc hst =>
    by_cases hf : ∃ k, f = .cb k
    · obtain ⟨k, rfl⟩ := hf
      exact h.answer (places_transformCb (s := { s with stack := fs }) k none false (by simp))
        rfl rfl
    · exact h.congr (hi.places_frame hst fun k hk => hf ⟨k, hk⟩)
  | user a _ hu => exact h.congr (places_userCall a)

theorem unreturned_init {mode : Mode} {m : Number} {h : ℤ} {x : σ} :
    (init mode m h x).Unreturned :=
  ⟨fun hm => absurd hm List.not_mem_nil, List.not_mem_nil⟩

/-- A stream that has ended got its output back. -/
theorem Unreturned.not_ended (h : s.Unreturned) {mode : Mode} {m : Number} {highWaterMark : ℤ}
    {x : σ} {ok : Engine σ → Act → Prop}
    (hr : Reaches (Engine.step K) ok (init mode m highWaterMark x) s) : .endEvent ∉ s.log := by
  intro he
  have hi : s.Invariant := .reaches hr
  have hfed := fed_of_reaches hr
  obtain ⟨-, -, -, -, o, ho⟩ := hi.at_end (hi.ended he)
  have hcalls : s.core.log.calls = s.log.calls := History.flow_calls
  have hne : s.core.log.handedBuffers ≠ [] := by
    have hchunks := hfed.fed ⟨_, hcalls ▸ ho, rfl⟩
    intro hnil
    have hpre := hfed.isPrefix
    rw [hnil, List.prefix_nil] at hpre
    exact hchunks hpre
  have hwrite : .write ∈ s.places.deeds := by
    by_contra hno
    apply hne
    have hall : ∀ l b, .nativeWrite l b ∉ s.core.log := fun l b hm =>
      hno (List.mem_filterMap.mpr ⟨_, (List.mem_filter.mp hm).1, rfl⟩)
    have hnil := History.handedBuffers_append (h := []) s.core.log hall
    rwa [List.append_nil] at hnil
  have hfree : s.ctx.workReq = none := (hi.sound.control.eof (hi.ended he)).2.1.workReq
  have hin : s.ctx.workReq.isSome = true := h.write hwrite
  rw [hfree] at hin
  cases hin

/-- No native error was reported. -/
theorem Unreturned.nativeErrors (h : s.Unreturned) : s.log.nativeErrors = [] := by
  by_contra hne
  obtain ⟨err, herr⟩ := List.exists_mem_of_ne_nil _ hne
  obtain ⟨e, he, heq⟩ := List.mem_filterMap.mp herr
  apply h.fail
  refine List.mem_filterMap.mpr ⟨e, he, ?_⟩
  cases e with
  | error e' =>
    by_cases hno : e'.errno.isSome = true
    · rw [Event.deed, if_pos hno]
    · rw [Event.nativeErrorOf, if_neg hno] at heq
      cases heq
  | _ => cases heq

end Engine

namespace VcdiffBuffer

variable {w w' u : VcdiffBuffer σ} {mode : Mode} {m : Number} {highWaterMark : ℤ} {x : σ}
  {d : Buffer} {new : History}

theorem hear_places : (new.foldr hear u).engine.places = u.engine.places := by
  induction new with
  | nil => rfl
  | cons e new ih =>
    rw [List.foldr_cons, ← ih]
    cases e with
    | endEvent =>
      rw [hear]
      split
      · exact Engine.places_close none
      · rfl
    | _ => rfl

/-- The steps of a call that `AfterShim` has no part in. -/
def Patient (K : Coder σ) (w w' : VcdiffBuffer σ) : Prop :=
  ∃ a, Act.onItsOwn w a ∧ a ≠ .engine .afterShim ∧ w.step K a = some w'

/-- The body has run, and nothing remains but a native write in progress. -/
structure Parks (w : VcdiffBuffer σ) : Prop where
  script : w.script = []
  calling : w.engine.calling = none
  stack : w.engine.stack = []
  ticks : w.engine.ticks = []
  workReq : w.engine.ctx.workReq.isSome = true

/-- Nothing but its listeners refers to the engine of a call that parks. -/
theorem Parks.not_reached (h : w.Parks) : w.reached = false := by
  simp [reached, Engine.handleReached, h.script, h.calling, h.stack, h.ticks]

theorem Good.unreturned (h : Good K x mode m highWaterMark d [] w) (hu : w.engine.Unreturned)
    {a : Act} (ha : a ≠ .engine .afterShim) (hs : w.step K a = some w') :
    w'.engine.Unreturned := by
  have key : ∀ (v : VcdiffBuffer σ) (b : Engine.Act), v.engine = w.engine → b ≠ .afterShim →
      v.perform K b = some w' → w'.engine.Unreturned := by
    intro v b hv hb hp
    have hi : v.engine.Invariant := by rw [hv]; exact .reaches h.reach
    have huv : v.engine.Unreturned := by rw [hv]; exact hu
    obtain ⟨t, new, hst, -, rfl⟩ := perform_spec hi.shape hp
    exact (huv.step hi hb hst).congr hear_places
  cases a with
  | body =>
    simp only [VcdiffBuffer.step] at hs
    split at hs
    · next b rest hscript =>
      split at hs
      · have hb : b ≠ .afterShim := by
          rcases h.stage with ⟨hst, -⟩ | ⟨hst, -⟩ | ⟨hst | hst, -⟩ <;> rw [hscript] at hst
          · rw [(List.cons.inj hst).1]; simp
          · rw [(List.cons.inj hst).1]; simp
          · rw [(List.cons.inj hst).1]; simp
          · cases hst
        exact key { w with script := rest } b rfl hb hs
      · cases hs
    · cases hs
  | engine b =>
    simp only [VcdiffBuffer.step] at hs
    split at hs
    · exact key w b rfl (fun hb => ha (by rw [hb])) hs
    · cases hs

/-- Before its native write comes back, a call goes on or parks. -/
theorem Good.patient (h : Good K x mode m highWaterMark d [] w) (hu : w.engine.Unreturned)
    (hp : ¬ w.Parks) : ∃ w', Patient K w w' := by
  have hi : w.engine.Invariant := .reaches h.reach
  by_cases hscript : w.script = []
  · have hnoend := hu.not_ended h.reach
    have hwait : w.Waiting [] := by
      rcases h.results with hwait | ⟨-, he, -⟩ | ⟨err, -, herr, -⟩
      · exact hwait
      · exact absurd he hnoend
      · rw [hu.nativeErrors] at herr
        cases herr
    obtain ⟨-, -, -, hnoerr⟩ := hwait
    obtain ⟨t, a, ha, hs⟩ := hi.progress (K := K) (h.not_quiescent hscript hnoend hnoerr)
    by_cases hafter : a = .afterShim
    · -- the native write could come back: what else remains are ticks
      subst hafter
      obtain ⟨hfault, hm⟩ := Engine.step_moves hs
      have hidle : w.engine.calling = none ∧ w.engine.stack = [] ∧ w.engine.ctx.workReq.isSome := by
        cases hm with
        | afterShim hc hst hw => exact ⟨hc, hst, hw⟩
        | user _ _ hu => cases hu
      obtain ⟨hc, hst, hw⟩ := hidle
      cases hticks : w.engine.ticks with
      | nil => exact absurd ⟨hscript, hc, hst, hticks, hw⟩ hp
      | cons k ks =>
        have htick : ∃ t, w.engine.step K .tick = some t := by
          simp [Engine.step, hfault, hticks, Engine.atLoop, hc, hst]
        obtain ⟨t, ht⟩ := htick
        obtain ⟨w', hw'⟩ := h.engine_step hscript hnoerr (a := .tick) trivial ht
        exact ⟨w', .engine .tick, trivial, by simp, hw'⟩
    · obtain ⟨w', hw'⟩ := h.engine_step hscript hnoerr ha hs
      exact ⟨w', .engine a, ha, fun heq => hafter (Act.engine.inj heq), hw'⟩
  · obtain ⟨a, w', rfl | rfl, hw'⟩ := h.progress_in_body hscript
    · exact ⟨w', .body, trivial, by simp, hw'⟩
    · exact ⟨w', .engine .run, trivial, by simp, hw'⟩

/-- Every call comes to a point where nothing but a native write remains of it. -/
theorem exists_parks (K : Coder σ) (x : σ) (mode : Mode) (m : Number) (highWaterMark : ℤ)
    (input : Input) : ∃ w, Reaches (VcdiffBuffer.step K) anyStep
      (vcdiffBuffer (.init mode m highWaterMark x) input) w ∧ w.Parks := by
  have hstart : Good K x mode m highWaterMark input.bytes []
      (vcdiffBuffer (.init mode m highWaterMark x) input) :=
    .start ⟨rfl, rfl⟩ rfl ⟨rfl, rfl⟩ (.inl rfl)
  have hcome : Inevitable (Patient K) Parks
      (vcdiffBuffer (.init mode m highWaterMark x) input) := by
    refine Inevitable.of_measure lessens_wellFounded
      (fun w : VcdiffBuffer σ => (w.script.length, w.engine))
      (I := fun w => Good K x mode m highWaterMark input.bytes [] w ∧ w.engine.Unreturned)
      (fun w hw hp => hw.1.patient hw.2 hp) ?_ ⟨hstart, Engine.unreturned_init⟩
    rintro w w' ⟨hg, hu⟩ - ⟨a, ha, hne, hs⟩
    exact ⟨⟨hg.step hs, hg.unreturned hu hne hs⟩, hg.lessens ⟨a, ha, hs⟩⟩
  exact hcome.exists_reaches fun w w' ⟨a, _, _, hs⟩ => ⟨a, trivial, hs⟩

end VcdiffBuffer

/-! ## When contexts outlive their writes -/

/-- A context whose user keeps the stream while a native write is in progress is not destroyed in
flight. The context of an asynchronous call always can be. -/
theorem contexts_kept (K : Coder σ) (x : σ) (mode : Mode) (m : Number) (highWaterMark : ℤ) :
    (∀ c, Reaches (Collection.step (Holding.step K) Holding.reached)
        (Collection.Allowed (Holding.keeps K)) ⟨⟨.init mode m highWaterMark x, true⟩, false⟩ c →
      c.destroyed = true → ¬ c.subject.engine.InFlight) ∧
    ∀ input, ∃ c, Reaches (Collection.step (VcdiffBuffer.step K) VcdiffBuffer.reached) anyStep
        ⟨vcdiffBuffer (.init mode m highWaterMark x) input, false⟩ c ∧
      c.destroyed = true ∧ c.subject.engine.InFlight := by
  refine ⟨fun c hr hd hf => ?_, fun input => ?_⟩
  · obtain ⟨hrun, hdead⟩ := Collection.reaches_subject hr
    have hi : c.subject.engine.Invariant := .reaches (Holding.engine_of_reaches hrun)
    have hreached := Holding.reached_of_inFlight hi hf (Holding.held_of_reaches rfl hrun)
    rw [hdead hd] at hreached
    cases hreached
  · obtain ⟨w, hr, hp⟩ := VcdiffBuffer.exists_parks K x mode m highWaterMark input
    exact ⟨⟨w, true⟩, (Collection.exists_destroyed hr hp.not_reached).mono fun _ _ _ => trivial,
      rfl, .inl hp.workReq⟩

/-- A user who waits for the write loses the stream with nothing in flight; the context of an
asynchronous call is lost in flight. -/
theorem contexts_kept_copy :
    (∃ c, Reaches (Collection.step (Holding.step copyCoder) Holding.reached)
        (Collection.Allowed (Holding.keeps copyCoder))
        ⟨⟨.init .decode (.ofInt 4096) 16384 (), true⟩, false⟩ c ∧ c.destroyed = true ∧
      c.subject.engine.log.handed = [1] ∧ ¬ c.subject.engine.InFlight) ∧
    ∃ c, Reaches (Collection.step (VcdiffBuffer.step copyCoder) VcdiffBuffer.reached) anyStep
        ⟨vcdiffBuffer (.init .decode (.ofInt 4096) 16384 ()) (.buffer [1]), false⟩ c ∧
      c.destroyed = true ∧ c.subject.engine.InFlight := by
  obtain ⟨hkept, hlost⟩ := contexts_kept copyCoder () .decode (.ofInt 4096) 16384
  have hrun : ∃ c, Reaches (Collection.step (Holding.step copyCoder) Holding.reached)
      (Collection.Allowed (Holding.keeps copyCoder))
      ⟨⟨.init .decode (.ofInt 4096) 16384 (), true⟩, false⟩ c ∧ c.destroyed = true ∧
        c.subject.engine.log.handed = [1] :=
    Transition.exists_reaches ([.act (.engine (.write [1])), .act (.engine .run),
      .act (.engine .work), .act (.engine .afterShim)] ++
      .replicate 7 (.act (.engine .run)) ++ [.act .drop, .collect]) (by decide +kernel)
  obtain ⟨c, hr, hd, hlog⟩ := hrun
  exact ⟨⟨c, hr, hd, hlog, hkept c hr hd⟩, hlost (.buffer [1])⟩

/-- A stream that is let go of while the worker has its first byte is collected. -/
theorem collected_in_flight :
    ∃ c, Reaches (Collection.step (Holding.step copyCoder) Holding.reached) anyStep
        ⟨⟨.init .decode (.ofInt 4096) 16384 (), true⟩, false⟩ c ∧ c.destroyed = true ∧
      c.subject.engine.InFlight := by
  have hrun : ∃ c, Reaches (Collection.step (Holding.step copyCoder) Holding.reached) anyStep
      ⟨⟨.init .decode (.ofInt 4096) 16384 (), true⟩, false⟩ c ∧ c.destroyed = true ∧
        c.subject.engine.ctx.workReq.isSome = true :=
    Transition.exists_reaches [.act (.engine (.write [1])), .act (.engine .run), .act .drop,
      .collect] (by decide +kernel)
  obtain ⟨c, hr, hd, hw⟩ := hrun
  exact ⟨c, hr, hd, .inl hw⟩

end NodeVcdiff
