import NodeVcdiff.Progress

/-!
# What a step notes

Bytes are accepted and `close` is called only by the steps that say so. Apart from the errors
of the binding, an 'error' event belongs to a chunk that a closed stream refused or to a
write after `end()`.
-/

namespace NodeVcdiff

open Transition (Reaches)

variable {σ : Type*} {K : Coder σ}

/-- An event that any step may note. -/
def Event.isInner : Event → Bool
  | .accept c => c.isEmpty
  | .flush _ | .close | .endEvent => false
  | _ => true

namespace Engine

variable {s s' s'' : Engine σ} {a : Act} {p q : Event → Prop}

/-- The error was emitted, or is about to be. -/
def raises (s : Engine σ) (e : ErrorObject) : Prop :=
  .error e ∈ s.log ∨ .emitError e ∈ s.stack

/-- The step from `s` to `s'` notes events that meet `p`, and raises errors of the binding
only or refuses a chunk. -/
structure Calm (p : Event → Prop) (s s' : Engine σ) : Prop where
  log : ∃ new : History, s'.log = new ++ s.log ∧ ∀ e ∈ new, p e
  raises : ∀ e, s'.raises e → s.raises e ∨ e.errno.isSome ∨ s'.log.Refused

/-- A step that notes inner events only. -/
abbrev Inner (s s' : Engine σ) : Prop := Calm (fun e => e.isInner = true) s s'

theorem Calm.refused (h : Calm p s s') (hr : s.log.Refused) : s'.log.Refused := by
  obtain ⟨⟨new, hlog, -⟩, -⟩ := h
  obtain ⟨k, hk⟩ := hr
  exact ⟨k, by rw [hlog]; exact List.mem_append_right _ hk⟩

theorem Calm.after (h' : Calm p s' s'') (h : Calm p s s') : Calm p s s'' := by
  refine ⟨?_, fun e he => ?_⟩
  · obtain ⟨new, hlog, hn⟩ := h.log
    obtain ⟨new', hlog', hn'⟩ := h'.log
    refine ⟨new' ++ new, by rw [hlog', hlog, List.append_assoc], fun e he => ?_⟩
    exact (List.mem_append.mp he).elim (hn' e) (hn e)
  rcases h'.raises e he with he | he | he
  · rcases h.raises e he with he | he | he
    · exact .inl he
    · exact .inr (.inl he)
    · exact .inr (.inr (h'.refused he))
  · exact .inr (.inl he)
  · exact .inr (.inr he)

theorem Calm.mono (h : Calm p s s') (hpq : ∀ e, p e → q e) : Calm q s s' := by
  obtain ⟨⟨new, hlog, hn⟩, hr⟩ := h
  exact ⟨⟨new, hlog, fun e he => hpq e (hn e he)⟩, hr⟩

theorem Calm.of_append (new : History) (fs : List Frame) (hlog : s'.log = new ++ s.log)
    (hst : s'.stack = fs ++ s.stack) (hp : ∀ e ∈ new, p e)
    (hn : ∀ e, .error e ∈ new → e.errno.isSome) (hf : ∀ e, .emitError e ∉ fs) :
    Calm p s s' := by
  refine ⟨⟨new, hlog, hp⟩, fun e he => ?_⟩
  rcases he with he | he
  · rw [hlog, List.mem_append] at he
    rcases he with he | he
    · exact .inr (.inl (hn e he))
    · exact .inl (.inl he)
  · rw [hst, List.mem_append] at he
    rcases he with he | he
    · exact absurd he (hf e)
    · exact .inl (.inr he)

/-- A step that pushes frames only. -/
theorem Calm.of_stack (fs : List Frame) (hlog : s'.log = s.log)
    (hst : s'.stack = fs ++ s.stack) (hf : ∀ e, .emitError e ∉ fs) : Calm p s s' :=
  .of_append [] fs hlog hst (by simp) (by simp) hf

theorem Calm.refl : Calm p s s := .of_stack [] rfl rfl (by simp)

theorem Inner.of_append (new : History) (fs : List Frame) (hlog : s'.log = new ++ s.log)
    (hst : s'.stack = fs ++ s.stack) (hp : ∀ e ∈ new, e.isInner = true ∧ e.isError = false)
    (hf : ∀ e, .emitError e ∉ fs) : Inner s s' :=
  Calm.of_append new fs hlog hst (fun e he => (hp e he).1)
    (fun _ he => by cases (hp _ he).2) hf

theorem inner_emit {e : Event} (he : e.isInner = true ∧ e.isError = false) :
    Inner s (s.emit e) := by
  refine .of_append [e] [.user] rfl rfl (fun x hx => ?_) (by simp)
  rwa [List.mem_singleton.mp hx]

theorem inner_callUser (callback : Option ℕ) (ok : Bool) : Inner s (s.callUser callback ok) := by
  cases callback with
  | some id => exact inner_emit ⟨rfl, rfl⟩
  | none => exact .of_stack [.user] rfl rfl (by simp)

theorem close_notes (callback : Option ℕ) : ∃ new : History,
    (s.close callback).log = new ++ s.log ∧ (s.close callback).stack = s.stack ∧
      ∀ e ∈ new, (e.isInner = true ∨ e = .close) ∧ e.isError = false := by
  cases callback <;> cases hc : s.vcd.closed <;> cases hh : s.vcd.handle <;>
    simp only [Engine.close, note, nextTick, hc, hh, if_true, Bool.false_eq_true, if_false]
  all_goals first
    | exact ⟨[.close], rfl, trivial, by simp [Event.isInner, Event.isError]⟩
    | exact ⟨[.closeThrew, .close], rfl, trivial, by simp [Event.isInner, Event.isError]⟩
    | exact ⟨[.nativeClose, .close], rfl, trivial, by simp [Event.isInner, Event.isError]⟩

theorem close_keeps (callback : Option ℕ) : (s.close callback).rs = s.rs ∧
    (s.close callback).ws = s.ws ∧ (s.close callback).calling = s.calling ∧
    (s.close callback).fault = s.fault := by
  cases callback <;> cases hc : s.vcd.closed <;> cases hh : s.vcd.handle <;>
    simp [Engine.close, note, nextTick, hc, hh]

theorem emitEnd_keeps : s.emitEnd.rs.buffer = s.rs.buffer ∧ s.emitEnd.ws = s.ws ∧
    s.emitEnd.calling = s.calling ∧
    s.emitEnd.stack = .user :: .endListeners s.endListeners :: s.stack := by
  cases hc : s.vcd.closed <;> cases hh : s.vcd.handle <;>
    simp [emitEnd, Engine.close, note, nextTick, hc, hh]

theorem calm_close (callback : Option ℕ) :
    Calm (fun e => e.isInner = true ∨ e = .close) s (s.close callback) := by
  obtain ⟨new, hlog, hst, hn⟩ := close_notes (s := s) callback
  exact .of_append new [] hlog hst (fun e he => (hn e he).1) (fun _ he => by cases (hn _ he).2)
    (by simp)

theorem emitEnd_notes : ∃ new : History, s.emitEnd.log = new ++ .endEvent :: s.log ∧
    ∀ e ∈ new, e ≠ .endEvent ∧ ∀ err, e ≠ .error err := by
  obtain ⟨new, hlog, -, hn⟩ := close_notes (s := { s with
    rs.endEmitted := true, endListeners := []
    stack := .user :: .endListeners s.endListeners :: s.stack
    log := .endEvent :: s.log }) none
  refine ⟨new, hlog, fun e he => ⟨?_, ?_⟩⟩
  · rintro rfl
    rcases (hn _ he).1 with h | h <;> cases h
  · rintro err rfl
    cases (hn _ he).2

theorem calm_write (req : WriteReq) (he : s.ws.ending = false) :
    Calm (fun e => e.isInner = true ∨ e = .accept req.chunk) s (s.write req) := by
  unfold Engine.write writeOrBuffer doWrite
  dsimp only
  rw [if_neg (by simp [he])]
  split <;> exact .of_append [.accept req.chunk] [] rfl rfl (by simp) (by simp) (by simp)

theorem inner_flush (callback : Option ℕ) : Inner s (s.flush callback) := by
  unfold Engine.flush
  split
  · split <;> exact .of_stack [] rfl rfl (by simp)
  · split
    · split <;> exact .of_stack [] rfl rfl (by simp)
    · next hending =>
      split
      · exact .of_stack [] rfl rfl (by simp)
      · have hwrite := calm_write (s := { s with vcd.forceFlush := true }) ⟨[], callback⟩
          (by simpa using hending)
        exact (hwrite.mono fun e he => he.elim id (by rintro rfl; rfl)).after
          (.of_stack [] rfl rfl (by simp))

/-- The callback of a call is called without an error. -/
theorem inner_transformCb (k : TransformCb) (sync : Bool) :
    Inner s (s.transformCb k none sync) := by
  cases k with
  | done =>
    exact .of_append [.pushNull, .transformCb .done true] [.user] rfl rfl
      (by simp [Event.isInner, Event.isError]) (by simp)
  | afterTransform =>
    simp only [Engine.transformCb, onwrite]
    split
    · exact .of_append [_] [] rfl rfl
        (by simp [Event.isInner, Event.isError]) (by simp)
    · split
      · exact .of_append [_] [.clearBuffer, .afterWrite _ _] rfl rfl
          (by simp [Event.isInner, Event.isError]) (by simp)
      · exact .of_append [_] [.afterWrite _ _] rfl rfl
          (by simp [Event.isInner, Event.isError]) (by simp)

theorem inner_processChunk (chunk : Buffer) (l ff : Bool) (k : TransformCb) :
    Inner s (s.processChunk chunk l ff k) := by
  unfold processChunk nativeWrite
  dsimp only
  split
  · split
    · exact .of_append [.take chunk] [] rfl rfl
        (by simp [Event.isInner, Event.isError]) (by simp)
    · split
      · exact .of_append [.take chunk] [] rfl rfl
          (by simp [Event.isInner, Event.isError]) (by simp)
      · exact .of_append [.nativeWrite _ _, .take chunk] [] rfl rfl
          (by simp [Event.isInner, Event.isError]) (by simp)
  · exact .of_append [.take chunk] [] rfl rfl
      (by simp [Event.isInner, Event.isError]) (by simp)

/-- A chunk is refused. -/
theorem inner_refuse (k : TransformCb) (sync : Bool) :
    Inner s (s.transformCb k (some closedError) sync) := by
  have hlog : ∃ new : History, (s.transformCb k (some closedError) sync).log =
      new ++ .transformCb k false :: s.log ∧ ∀ e ∈ new, e.isInner = true := by
    cases k with
    | done => exact ⟨[.error closedError], rfl, by simp [Event.isInner]⟩
    | afterTransform =>
      simp only [Engine.transformCb, onwrite]
      split
      · exact ⟨[], rfl, by simp⟩
      · next req _ =>
        cases sync with
        | true => exact ⟨[.error closedError], rfl, by simp [Event.isInner]⟩
        | false =>
          cases req.callback with
          | none => exact ⟨[], rfl, by simp⟩
          | some id => exact ⟨[.flushCb id false], rfl, by simp [Event.isInner]⟩
  obtain ⟨new, hlog, hn⟩ := hlog
  refine ⟨⟨new ++ [.transformCb k false], by rw [hlog, List.append_assoc]; rfl, ?_⟩, ?_⟩
  · intro e he
    rcases List.mem_append.mp he with he | he
    · exact hn e he
    · rw [List.mem_singleton.mp he]; rfl
  · exact fun e _ => .inr (.inr ⟨k, by rw [hlog]; simp⟩)

theorem inner_transform (chunk : Buffer) (isBuffer sync : Bool) (k : TransformCb) :
    Inner s (s.transform chunk isBuffer sync k) := by
  unfold transform
  dsimp only
  split
  · exact inner_refuse k sync
  · refine (inner_processChunk _ _ _ _).after ?_
    split <;> exact .of_stack [] rfl rfl (by simp)

theorem inner_runCalling (c : Calling) : Inner s (s.runCalling c) := by
  cases c with
  | transform sync =>
    simp only [runCalling]
    split
    · exact (inner_transform _ _ _ _).after (.of_stack [] rfl rfl (by simp))
    · exact .of_stack [] rfl rfl (by simp)
  | flush =>
    exact (inner_transform _ _ _ _).after (.of_stack [] rfl rfl (by simp))

theorem inner_afterShim : Inner s s.afterShim := by
  unfold afterShim
  dsimp only
  split
  · exact Calm.of_append [.error (nativeError _)] [.user, .sendError] rfl rfl
      (by simp [Event.isInner]) (by simp [nativeError]) (by simp)
  · split
    · unfold callback
      split
      · exact .of_stack [.afterShim] rfl rfl (by simp)
      · exact .of_append [.push _] [.user, .cb _, .afterShim] rfl rfl
          (by simp [Event.isInner, Event.isError]) (by simp)
    · exact .of_stack [.afterShim] rfl rfl (by simp)

theorem inner_runTick (t : Tick) : Inner s (s.runTick t) := by
  cases t with
  | transformCb k => exact inner_transformCb k false
  | flushCb id => exact inner_callUser (some id) true
  | writeError callback => exact inner_callUser callback false
  | closeCb id => exact inner_emit ⟨rfl, rfl⟩
  | emitClose => exact inner_emit ⟨rfl, rfl⟩

/-- Running a frame taken from the stack. -/
theorem inner_runFrame {f : Frame} {fs : List Frame} (hst : s.stack = f :: fs) :
    Inner s (({ s with stack := fs } : Engine σ).runFrame f) := by
  have hpop : Inner s { s with stack := fs } := by
    refine ⟨⟨[], rfl, by simp⟩, fun e he => .inl (he.imp_right fun hm => ?_)⟩
    rw [hst]; exact List.mem_cons_of_mem _ hm
  cases f with
  | user => exact hpop
  | ended | afterShim | sendError => exact ⟨hpop.log, hpop.raises⟩
  | cb k => exact (inner_transformCb k false).after hpop
  | clearBuffer =>
    refine Calm.after ?_ hpop
    simp only [runFrame]
    split
    · exact .of_stack [.clearBuffer] rfl rfl (by simp)
    · exact .of_stack [] rfl rfl (by simp)
  | afterWrite finished callback =>
    refine Calm.after ?_ hpop
    simp only [runFrame]
    split
    · exact .of_stack [.user, .drain _, .writeCb callback] rfl rfl (by simp)
    · exact .of_stack [.writeCb callback] rfl rfl (by simp)
  | drain listeners =>
    cases listeners with
    | nil => exact hpop
    | cons callback rest =>
      refine (inner_flush callback).after (Calm.after ?_ hpop)
      exact .of_stack [.user, .drain rest] rfl rfl (by simp)
  | writeCb callback =>
    refine (inner_callUser callback true).after (Calm.after ?_ hpop)
    exact .of_stack [.finishMaybe] rfl rfl (by simp)
  | finishMaybe =>
    refine Calm.after ?_ hpop
    simp only [runFrame]
    split
    · exact .of_stack [.user] rfl rfl (by simp)
    · exact .refl
  | emitError e =>
    refine ⟨⟨[.error e], rfl, by simp [Event.isInner]⟩, fun e' he => .inl ?_⟩
    rcases he with he | he
    · rcases List.mem_cons.mp he with heq | he
      · obtain rfl : e' = e := by simpa using heq
        exact .inr (by rw [hst]; exact List.mem_cons_self)
      · exact .inl he
    · refine .inr ?_
      rw [hst]
      exact List.mem_cons_of_mem _ (by simpa [runFrame, emit] using he)
  | endListeners ids =>
    cases ids with
    | nil => exact hpop
    | cons id ids =>
      refine (inner_callUser (some id) true).after (Calm.after ?_ hpop)
      exact .of_stack [.endListeners ids] rfl rfl (by simp)

/-- The events that only certain steps note. -/
def Act.allows (a : Act) (e : Event) : Prop :=
  e.isInner = true ∨ match a with
    | .write chunk => e = .accept chunk
    | .flush _ => ∃ id, e = .flush id
    | .close _ => e = .close
    | .emitEnd => e = .close ∨ e = .endEvent
    | _ => False

theorem Inner.allowed (h : Inner s s') (a : Act) : Calm a.allows s s' :=
  Calm.mono h fun _ he => .inl he

theorem calm_userCall (a : Act) (hw : ∀ chunk, a = .write chunk → s.ws.ending = false) :
    Calm a.allows s (s.userCall a) := by
  cases a with
  | write chunk => exact calm_write ⟨chunk, none⟩ (hw chunk rfl)
  | flush hasCallback =>
    cases hasCallback
    · exact (inner_flush none).allowed _
    · refine ((inner_flush _).allowed _).after ?_
      exact .of_append [.flush s.nextFlush] [] rfl rfl (by simp [Act.allows]) (by simp) (by simp)
  | endWritable =>
    simp only [userCall, endWritable]
    split
    · exact .refl
    · exact .of_stack [.finishMaybe, .ended] rfl rfl (by simp)
  | close hasCallback =>
    cases hasCallback
    · exact calm_close none
    · have hclose := calm_close (s := { s with nextClose := s.nextClose + 1 }) (some s.nextClose)
      exact hclose.after (.of_stack [] rfl rfl (by simp))
  | demand | read | work | afterShim | tick | emitEnd | run =>
    exact .of_stack [] rfl rfl (by simp)

/-- The user does not write behind `end()`. -/
def Act.inTime (s : Engine σ) (a : Act) : Prop := ∀ chunk, a = .write chunk → s.ws.ending = false

instance (s : Engine σ) (a : Act) : Decidable (a.inTime s) :=
  match a with
  | .write _ => decidable_of_iff (s.ws.ending = false) ⟨fun h _ _ => h, fun h => h _ rfl⟩
  | .flush _ | .endWritable | .close _ | .demand _ | .read | .work | .afterShim | .tick
  | .emitEnd | .run => .isTrue nofun

theorem step_calm (hw : a.inTime s) (h : step K s a = some s') : Calm a.allows s s' := by
  obtain ⟨-, hm⟩ := step_moves h
  cases hm with
  | work =>
    exact .of_append [.work _] [] rfl rfl (by simp [Act.allows, Event.isInner]) (by simp) (by simp)
  | workFail => exact .of_stack [] rfl rfl (by simp)
  | afterShim => exact inner_afterShim.allowed _
  | tick =>
    exact ((inner_runTick _).allowed _).after (.of_stack [] rfl rfl (by simp))
  | emitEnd =>
    refine ((calm_close none).mono fun e he => he.imp_right .inl).after ?_
    exact .of_append [.endEvent] [.user, .endListeners _] rfl rfl (by simp) (by simp) (by simp)
  | calling => exact (inner_runCalling _).allowed _
  | frame _ hst => exact (inner_runFrame hst).allowed _
  | user => exact calm_userCall a hw

/-! ## Steps without the user -/

end Engine

namespace History

variable {new h : History}

theorem written_append (hn : ∀ c, .accept c ∈ new → c = []) :
    History.written (new ++ h) = h.written := by
  induction new with
  | nil => rfl
  | cons e new ih =>
    have hrest := ih fun c hc => hn c (List.mem_cons_of_mem _ hc)
    cases e with
    | accept c =>
      obtain rfl := hn c List.mem_cons_self
      rw [List.cons_append, written, hrest, List.append_nil]
    | _ => exact hrest

theorem ClosedAtEnd.append (hc : h.ClosedAtEnd) (hn : .close ∉ new) :
    History.ClosedAtEnd (new ++ h) := by
  induction new with
  | nil => exact hc
  | cons e new ih =>
    intro older hs
    rcases List.suffix_cons_iff.mp hs with heq | hs
    · obtain ⟨rfl, -⟩ := List.cons.inj heq
      exact absurd List.mem_cons_self hn
    · exact ih (fun hm => hn (List.mem_cons_of_mem _ hm)) older hs

/-- What follows 'end' may close. -/
theorem ClosedAtEnd.after_end (hc : h.ClosedAtEnd) (he : .endEvent ∈ h) :
    History.ClosedAtEnd (new ++ h) := by
  induction new with
  | nil => exact hc
  | cons e new ih =>
    intro older hs
    rcases List.suffix_cons_iff.mp hs with heq | hs
    · obtain ⟨-, rfl⟩ := List.cons.inj heq
      exact List.mem_append_right _ he
    · exact ih older hs

end History

namespace Engine

variable {s s' t : Engine σ} {a : Act}

theorem Act.inTime_of_own (ha : a.onItsOwn s) : a.inTime s := by
  rintro chunk rfl
  cases ha

/-- A step without the user accepts no bytes and closes only at 'end'. -/
theorem own_step (ha : a.onItsOwn s) (h : step K s a = some s') :
    (∀ c, .accept c ∈ s'.log → .accept c ∈ s.log ∨ c = []) ∧ s'.log.written = s.log.written ∧
      (s.log.ClosedAtEnd → s'.log.ClosedAtEnd) := by
  obtain ⟨new, hlog, hn⟩ := (step_calm (Act.inTime_of_own ha) h).log
  have hempty : ∀ c, .accept c ∈ new → c = [] := by
    intro c hc
    rcases hn _ hc with hin | hal
    · exact List.isEmpty_iff.mp hin
    · cases a with
      | emitEnd => simp at hal
      | write | flush | close | endWritable => cases ha
      | demand | read | work | afterShim | tick | run => cases hal
  refine ⟨fun c hc => ?_, by rw [hlog, History.written_append hempty], fun hclosed => ?_⟩
  · rw [hlog, List.mem_append] at hc
    exact hc.symm.imp_right (hempty c)
  · by_cases he : a = .emitEnd
    · subst he
      obtain ⟨-, hm⟩ := step_moves h
      cases hm with
      | emitEnd =>
        obtain ⟨new', hlog', -⟩ := emitEnd_notes (s := s)
        rw [hlog']
        have hend : History.ClosedAtEnd (.endEvent :: s.log) :=
          History.ClosedAtEnd.append hclosed (show Event.close ∉ [Event.endEvent] by simp)
        exact hend.after_end List.mem_cons_self
      | user _ _ hu => cases hu
    · rw [hlog]
      refine hclosed.append fun hm => ?_
      rcases hn _ hm with hin | hal
      · cases hin
      · cases a with
        | emitEnd => exact he rfl
        | write | flush | close | endWritable => cases ha
        | demand | read | work | afterShim | tick | run => cases hal

theorem own_run (h : Reaches (step K) Act.onItsOwn s t) :
    (∀ c, .accept c ∈ t.log → .accept c ∈ s.log ∨ c = []) ∧ t.log.written = s.log.written ∧
      (s.log.ClosedAtEnd → t.log.ClosedAtEnd) := by
  induction h with
  | refl => exact ⟨fun _ => .inl, rfl, id⟩
  | tail _ ha hs ih =>
    obtain ⟨h1, h2, h3⟩ := own_step ha hs
    refine ⟨fun c hc => ?_, h2.trans ih.2.1, fun hc => h3 (ih.2.2 hc)⟩
    rcases h1 c hc with hc | hc
    · exact ih.1 c hc
    · exact .inr hc

/-! ## Errors -/

/-- Without writes behind `end()` every 'error' event that is not the binding's belongs to a
refused chunk. -/
theorem raises_of_reaches {mode : Mode} {m : Script.Number} {h : ℤ} {x : σ}
    {ok : Engine σ → Act → Prop} (hok : ∀ s a, ok s a → a.inTime s)
    (hr : Reaches (step K) ok (init mode m h x) s) :
    ∀ e, s.raises e → e.errno.isSome ∨ s.log.Refused := by
  induction hr with
  | refl => rintro e (he | he) <;> cases he
  | tail _ hk hs ih =>
    have hc := step_calm (hok _ _ hk) hs
    intro e he
    rcases hc.raises e he with he | he
    · exact (ih e he).imp_right hc.refused
    · exact he

/-- A stream without failure and without refused chunk has emitted no 'error'. -/
theorem Invariant.no_error (h : s.Invariant) (hf : s.log.hasFailed = false)
    (href : ¬ s.log.Refused) (hra : ∀ e, s.raises e → e.errno.isSome ∨ s.log.Refused) :
    ∀ e, .error e ∉ s.log := by
  intro e he
  have hsome : e.errno.isSome := (hra e (.inl he)).resolve_right href
  have herr : s.core.ctx.err = .ok := by
    rw [← h.sound.coded.hasFailed]
    exact History.flow_hasFailed.trans hf
  have hnone : s.log.nativeErrors = [] := by
    rw [← History.flow_nativeErrors]
    exact (h.sound.coded.settled herr).errors
  have hmem : e ∈ s.log.nativeErrors :=
    List.mem_filterMap.mpr ⟨_, he, by simp [Event.nativeErrorOf, hsome]⟩
  rw [hnone] at hmem
  cases hmem

end Engine

end NodeVcdiff
