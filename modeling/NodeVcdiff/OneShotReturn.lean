import NodeVcdiff.OneShotRun

/-!
# Every one-shot call comes back

A call that has heard nothing goes on, and it cannot go on for ever.
-/

namespace NodeVcdiff

open Script (Number)
open Transition (Reaches anyStep Inevitable)

variable {σ : Type*} {K : Coder σ} {x : σ}

namespace VcdiffBuffer

variable {w w' u : VcdiffBuffer σ} {mode : Mode} {m : Number} {highWaterMark : ℤ} {d : Buffer}
  {pre : List (Except ErrorObject Buffer)} {t : Engine σ} {new : History}

theorem close_closed (s : Engine σ) (callback : Option ℕ) :
    (s.close callback).vcd.closed = true := by
  cases callback <;> cases hc : s.vcd.closed <;> cases hh : s.vcd.handle <;>
    simp [Engine.close, Engine.note, Engine.nextTick, hc, hh]

theorem hear_script : (new.foldr hear u).script = u.script := by
  induction new with
  | nil => rfl
  | cons e new ih =>
    rw [List.foldr_cons, ← ih]
    cases e with
    | endEvent => rw [hear]; split <;> rfl
    | _ => rfl

/-- Listening changes the engine by closing it once more at most. -/
theorem hear_engine (hn : u.engine.vcd.closed = true ∨ .endEvent ∉ new) :
    (new.foldr hear u).engine.pending = u.engine.pending ∧
    (new.foldr hear u).engine.price = u.engine.price ∧
    (new.foldr hear u).engine.vcd.closed = u.engine.vcd.closed := by
  induction new with
  | nil => exact ⟨rfl, rfl, rfl⟩
  | cons e new ih =>
    obtain ⟨h1, h2, h3⟩ := ih (hn.imp_right fun h he => h (List.mem_cons_of_mem _ he))
    cases e with
    | endEvent =>
      have hclosed : u.engine.vcd.closed = true :=
        hn.resolve_right fun h => h List.mem_cons_self
      simp only [List.foldr_cons, hear]
      split
      · have heq : (new.foldr hear u).engine.close none = (new.foldr hear u).engine.note .close := by
          rw [hclosed] at h3
          simp [Engine.close, Engine.note, h3]
        rw [onEnd]
        simp only [heq]
        exact ⟨h1, h2, h3⟩
      · exact ⟨h1, h2, h3⟩
    | _ => exact ⟨h1, h2, h3⟩

/-- A step of the engine brings the call nearer to rest. -/
theorem nearer_perform {a : Engine.Act} (h : w.engine.Invariant) (ha : a.onItsOwn w.engine)
    (hp : w.perform K a = some w') : w'.script = w.script ∧ Engine.Nearer w'.engine w.engine := by
  obtain ⟨t, new, hs, hlog, rfl⟩ := perform_spec h.shape hp
  have hnear : Engine.Nearer t w.engine := h.nearer ⟨a, ha, hs⟩
  have hclosed : t.vcd.closed = true ∨ .endEvent ∉ new := by
    by_cases hend : a = .emitEnd
    · subst hend
      obtain ⟨-, hm⟩ := Engine.step_moves hs
      cases hm with
      | emitEnd => exact .inl (close_closed _ none)
      | user _ _ hu => cases hu
    · right
      intro he
      obtain ⟨new', hlog', hn⟩ := (Engine.step_calm (Engine.Act.inTime_of_own ha) hs).log
      obtain rfl : new' = new := List.append_cancel_right (hlog'.symm.trans hlog)
      rcases hn _ he with hin | hal
      · cases hin
      · cases a with
        | emitEnd => exact hend rfl
        | write | flush | close | endWritable => cases ha
        | demand | read | work | afterShim | tick | run => cases hal
  refine ⟨?_, ?_⟩
  · rw [hear_script]
    split
    · exact (flowRead_spec w).2.2.1
    · rfl
  · obtain ⟨h1, h2, -⟩ := hear_engine
      (u := { (if a = .read then w.flowRead else w) with engine := t }) hclosed
    unfold Engine.Nearer
    rw [h1, h2]
    exact hnear

theorem perform_some {a : Engine.Act} (hs : w.engine.step K a = some t) :
    ∃ w', w.perform K a = some w' := by
  rw [perform, hs]
  exact ⟨_, rfl⟩

/-- While its body runs a call goes on with it, or with what the body has called. -/
theorem Good.progress_in_body (h : Good K x mode m highWaterMark d pre w) (hscript : w.script ≠ []) :
    ∃ a w', (a = .body ∨ a = .engine .run) ∧ w.step K a = some w' := by
  have hi : w.engine.Invariant := .reaches h.reach
  have hfault : w.engine.fault = none := hi.sound.control.flags.fault
  obtain ⟨a, rest, hcons⟩ := List.exists_cons_of_ne_nil hscript
  by_cases hidle : w.engine.calling = none ∧ w.engine.stack = []
  · have hpoint : w.engine.userPoint = true := by
      simp [Engine.userPoint, Engine.atLoop, hidle.1, hidle.2]
    have hstep : ∃ t, w.engine.step K a = some t := by
      have huser : a = .write d ∨ a = .endWritable ∨ a = .read := by
        rcases h.stage with ⟨hst, -⟩ | ⟨hst, -⟩ | ⟨hst | hst, -⟩ <;> rw [hcons] at hst
        · exact .inl (List.cons.inj hst).1
        · exact .inr (.inl (List.cons.inj hst).1)
        · exact .inr (.inr (List.cons.inj hst).1)
        · cases hst
      rcases huser with rfl | rfl | rfl <;> simp [Engine.step, hfault, hpoint]
    obtain ⟨t, ht⟩ := hstep
    obtain ⟨w', hw'⟩ := perform_some (w := { w with script := rest }) ht
    refine ⟨.body, w', .inl rfl, ?_⟩
    simp only [VcdiffBuffer.step, hcons, hidle.1, hidle.2]
    exact hw'
  · have hstep : ∃ t, w.engine.step K .run = some t := by
      cases hc : w.engine.calling with
      | some c => simp [Engine.step, hfault, hc]
      | none =>
        cases hst : w.engine.stack with
        | nil => exact absurd ⟨hc, hst⟩ hidle
        | cons f fs => simp [Engine.step, hfault, hc, hst]
    obtain ⟨t, ht⟩ := hstep
    obtain ⟨w', hw'⟩ := perform_some ht
    exact ⟨.engine .run, w', .inr rfl, hw'⟩

/-- Once its body has run a call goes on with what the engine does by itself. -/
theorem Good.engine_step (h : Good K x mode m highWaterMark d pre w) (hscript : w.script = [])
    (hnoerr : ∀ e, .error e ∉ w.engine.log) {a : Engine.Act} (ha : a.onItsOwn w.engine)
    (hs : w.engine.step K a = some t) : ∃ w', w.step K (.engine a) = some w' := by
  obtain ⟨w', hw'⟩ := perform_some hs
  have hal : w.allows a = true := by
    cases a with
    | read => simp [allows, hscript, h.flow hscript hnoerr]
    | write | flush | close | endWritable => cases ha
    | demand | work | afterShim | tick | run | emitEnd => simp [allows, hscript]
  exact ⟨w', by simp only [VcdiffBuffer.step, hal, if_true]; exact hw'⟩

/-- A call that has run its body and waits is not at rest. -/
theorem Good.not_quiescent (h : Good K x mode m highWaterMark d pre w) (hscript : w.script = [])
    (hnoend : .endEvent ∉ w.engine.log) (hnoerr : ∀ e, .error e ∉ w.engine.log) :
    ¬ w.engine.Quiescent := by
  intro hq
  have hi : w.engine.Invariant := .reaches h.reach
  have hending : w.engine.ws.ending = true := by
    rcases h.stage with ⟨hst, -⟩ | ⟨hst, -⟩ | ⟨-, he, -⟩
    · rw [hscript] at hst; cases hst
    · rw [hscript] at hst; cases hst
    · exact he
  have href := hi.not_refused h.closed
  obtain ⟨hpur, hhead⟩ := Engine.on_its_way h.reach
  rcases hq.outcome hi hpur (hhead.resolve_left href) href hending with ⟨-, he⟩ | ⟨-, he⟩
  · exact hnoend he
  · have hmem : nativeError w.engine.ctx.err ∈ w.engine.log.nativeErrors := by rw [he]; simp
    obtain ⟨e, hel, hee⟩ := List.mem_filterMap.mp hmem
    cases e with
    | error e => exact hnoerr e hel
    | _ => cases hee

/-- A call that has not come back goes on. -/
theorem Good.progress (h : Good K x mode m highWaterMark d pre w) (hwait : w.Waiting pre) :
    ∃ w', Progress K w w' := by
  obtain ⟨-, -, hnoend, hnoerr⟩ := hwait
  by_cases hscript : w.script = []
  · obtain ⟨t, a, ha, hs⟩ :=
      (Engine.Invariant.reaches h.reach).progress (K := K) (h.not_quiescent hscript hnoend hnoerr)
    obtain ⟨w', hw'⟩ := h.engine_step hscript hnoerr ha hs
    exact ⟨w', .engine a, ha, hw'⟩
  · obtain ⟨a, w', rfl | rfl, hw'⟩ := h.progress_in_body hscript
    · exact ⟨w', .body, trivial, hw'⟩
    · exact ⟨w', .engine .run, trivial, hw'⟩

/-- Every step that brings a call on leaves less of it. -/
theorem Good.lessens (h : Good K x mode m highWaterMark d pre w) (hp : Progress K w w') :
    Prod.Lex (· < ·) Engine.Nearer (w'.script.length, w'.engine) (w.script.length, w.engine) := by
  obtain ⟨a, ha, hs⟩ := hp
  cases a with
  | body =>
    simp only [VcdiffBuffer.step] at hs
    split at hs
    · next a rest hscript =>
      split at hs
      · obtain ⟨t, new, -, -, rfl⟩ :=
          perform_spec (w := { w with script := rest }) (Engine.Invariant.reaches h.reach).shape hs
        refine .left _ _ ?_
        rw [hear_script, hscript]
        have hrest : (if a = .read then ({ w with script := rest } : VcdiffBuffer σ).flowRead
            else { w with script := rest }).script = rest := by
          split
          · exact (flowRead_spec _).2.2.1
          · rfl
        exact Nat.lt_succ_of_le (congrArg List.length hrest).le
      · cases hs
    · cases hs
  | engine a =>
    simp only [VcdiffBuffer.step] at hs
    split at hs
    · obtain ⟨h1, h2⟩ := nearer_perform (.reaches h.reach) ha hs
      rw [h1]
      exact .right _ h2
    · cases hs

theorem lessens_wellFounded : WellFounded
    (Prod.Lex (· < ·) Engine.Nearer : ℕ × Engine σ → ℕ × Engine σ → Prop) :=
  WellFounded.prod_lex Nat.lt_wfRel.wf Engine.nearer_wellFounded

/-- Every call comes to an end or to an error. -/
theorem Good.comes_back (h : Good K x mode m highWaterMark d pre w) :
    Inevitable (Progress K) (fun w => Good K x mode m highWaterMark d pre w ∧
      (w.Ended pre ∨ w.Failed pre)) w := by
  have hgoal : ∀ w : VcdiffBuffer σ, Good K x mode m highWaterMark d pre w →
      ¬ (Good K x mode m highWaterMark d pre w ∧ (w.Ended pre ∨ w.Failed pre)) →
      w.Waiting pre := fun w hw hno => hw.results.resolve_right fun hr => hno ⟨hw, hr⟩
  refine Inevitable.of_measure lessens_wellFounded
    (fun w : VcdiffBuffer σ => (w.script.length, w.engine))
    (fun w hw hp => hw.progress (hgoal w hw hp)) (fun w w' hw _ hp => ?_) h
  refine ⟨?_, hw.lessens hp⟩
  obtain ⟨a, -, hs⟩ := hp
  exact hw.step hs

/-- A call that shows an outcome has written its input. -/
theorem Good.written (h : Good K x mode m highWaterMark d pre w)
    (hlog : w.engine.log ≠ []) : w.engine.log.written = d := by
  rcases h.stage with ⟨-, heng⟩ | ⟨-, -, hw⟩ | ⟨-, -, hw⟩
  · rw [heng] at hlog
    exact absurd rfl hlog
  · exact hw
  · exact hw

theorem Good.written_of_ended (h : Good K x mode m highWaterMark d pre w)
    (he : .endEvent ∈ w.engine.log) : w.engine.log.written = d :=
  h.written (List.ne_nil_of_mem he)

theorem Good.written_of_failed (h : Good K x mode m highWaterMark d pre w)
    (hf : w.engine.log.hasFailed = true) : w.engine.log.written = d := by
  apply h.written
  intro hlog
  rw [hlog] at hf
  cases hf

/-! ## Coders that ignore empty buffers -/

variable (hI : ∀ y, K.machine.Live x y → K.machine.Ignores y [])

include hI in
theorem Good.outcome_of_ended (h : Good K x mode m highWaterMark d [] w) (he : w.Ended []) :
    w.results = [outcome K x d] := by
  obtain ⟨hres, hend, -⟩ := he
  have hi : w.engine.Invariant := .reaches h.reach
  have hw := h.written_of_ended hend
  rw [hres, outcome, Engine.run_of_ended_whole hI h.reach (hi.not_refused h.closed) h.accepted hw
    hend]
  rfl

include hI in
theorem Good.outcome_of_failed (h : Good K x mode m highWaterMark d [] w) (hf : w.Failed []) :
    w.results = [outcome K x d] := by
  obtain ⟨err, hres, -, rfl, hfail⟩ := hf
  have hi : w.engine.Invariant := .reaches h.reach
  have hw := h.written_of_failed hfail
  rw [hres, outcome, Engine.run_of_failed_whole hI h.reach (hi.not_refused h.closed) h.accepted hw
    hfail]
  rfl

end VcdiffBuffer

end NodeVcdiff
