import NodeVcdiff.OneShotReturn

/-!
# The asynchronous functions refine the synchronous ones

Streams follow as well, as long as the coder does not see how its input is cut.
-/

namespace NodeVcdiff

open Script (Number)
open Engine (copyCoder)
open Transition (Reaches anyStep Inevitable)

variable {σ : Type*} {K : Coder σ} {x : σ} {d : Buffer}

/-! ## Streams of a seamless coder -/

namespace Engine

variable {s : Engine σ} {mode : Mode} {m : Number} {highWaterMark : ℤ}
  {ok : Engine σ → Act → Prop}

variable (hI : ∀ y, K.machine.Live x y → K.machine.Ignores y []) (hS : K.machine.Seamless x)

include hI hS in
theorem toOption_run {bs : List Buffer} (hflat : bs.flatten = d) :
    (K.run x [d]).toOption = (K.run x bs).toOption :=
  hS.run_eq hI ((List.flatten_singleton).trans hflat.symm)

include hI hS in
/-- A stream that has ended pushed what the coder makes of the whole input at once. -/
theorem seamless_of_ended (hr : Reaches (step K) ok (init mode m highWaterMark x) s)
    (hw : s.log.written = d) (he : .endEvent ∈ s.log) : K.run x [d] = .ok s.log.pushed := by
  obtain ⟨hrun, hflat⟩ := run_of_ended hr he
  have heq := toOption_run hI hS (hflat.trans hw)
  rw [hrun] at heq
  cases h : K.run x [d] with
  | ok out => rw [h] at heq; exact congrArg Except.ok (Option.some.inj heq)
  | error e => rw [h] at heq; cases heq

include hI hS in
/-- A stream whose coder fails is given input on which the coder fails. -/
theorem seamless_of_failed (hr : Reaches (step K) ok (init mode m highWaterMark x) s)
    (href : ¬ s.log.Refused) (hw : s.log.written = d) (hf : s.log.hasFailed = true) :
    ∀ out, K.run x [d] ≠ .ok out := by
  intro out hout
  obtain ⟨rest, hrun, hflat, -⟩ := run_of_failed hr href hf
  have heq := toOption_run hI hS (hflat.trans hw)
  rw [hrun, hout] at heq
  cases heq

include hI hS in
/-- A stream that was ended comes to 'end' when the coder accepts the whole input at once. -/
theorem seamless_ends (hok : ∀ s a, ok s a → a.inTime s)
    (hr : Reaches (step K) ok (init mode m highWaterMark x) s) (hc : s.log.ClosedAtEnd)
    (he : s.ws.ending = true) (hw : s.log.written = d) {out : Buffer}
    (hout : K.run x [d] = .ok out) :
    Inevitable (Progress K) (fun t => .endEvent ∈ t.log ∧ t.log.pushed = out) s := by
  refine (settles hok hr hc he).imp fun t ⟨hrt, _, hwt, hct, hset⟩ => ?_
  have hwd : t.log.written = d := hwt.trans hw
  rcases hset with ⟨hend, -⟩ | ⟨hf, -⟩
  · have hrun := seamless_of_ended hI hS hrt hwd hend
    rw [hout] at hrun
    exact ⟨hend, (Except.ok.inj hrun).symm⟩
  · have href := (Invariant.reaches hrt).not_refused hct
    exact absurd hout (seamless_of_failed hI hS hrt href hwd hf out)

end Engine

/-! ## The refinement -/

/-- Every way through the library comes back with the outcome of the synchronous function. -/
theorem async_refines_sync (K : Coder σ) (x : σ) (mode : Mode) (m : Number) (input : Input) :
    ∃ r, (vcdiffBufferSync K (.init mode m 16384 x) input).2.result = some r ∧
      ((∀ y, K.machine.Live x y → K.machine.Ignores y []) →
        (∀ w, Reaches (VcdiffBuffer.step K) anyStep
            (vcdiffBuffer (.init mode m 16384 x) input) w →
          (w.results = [] ∨ w.results = [r]) ∧
            Inevitable (VcdiffBuffer.Progress K) (fun w => w.results = [r]) w) ∧
        (K.machine.Seamless x → ∀ s, Reaches (Engine.step K) (fun s a => a.inTime s)
            (.init mode m 16384 x) s → s.log.ClosedAtEnd → s.ws.ending = true →
            s.log.written = input.bytes →
          (.endEvent ∈ s.log → r = .ok s.log.pushed) ∧
            ∀ out, r = .ok out →
              Inevitable (Engine.Progress K) (fun t => .endEvent ∈ t.log ∧ t.log.pushed = out)
                s)) := by
  refine ⟨_, sync_eq_run K x mode m 16384 input, fun hI => ⟨fun w hw => ?_, ?_⟩⟩
  · have hgood : VcdiffBuffer.Good K x mode m 16384 input.bytes [] w := by
      induction hw with
      | refl => exact .start ⟨rfl, rfl⟩ rfl ⟨rfl, rfl⟩ (.inl rfl)
      | tail _ _ hs ih => exact ih.step hs
    have hout : ∀ w, VcdiffBuffer.Good K x mode m 16384 input.bytes [] w →
        w.Ended [] ∨ w.Failed [] → w.results = [VcdiffBuffer.outcome K x input.bytes] :=
      fun w hg hr => hr.elim (hg.outcome_of_ended hI) (hg.outcome_of_failed hI)
    refine ⟨hgood.results.imp And.left (hout w hgood), ?_⟩
    exact hgood.comes_back.imp fun w ⟨hg, hr⟩ => hout w hg hr
  · intro hS s hr hc he hw
    refine ⟨fun hend => ?_, fun out hout => ?_⟩
    · rw [Engine.seamless_of_ended hI hS hr hw hend]
      rfl
    · refine Engine.seamless_ends hI hS (fun _ _ h => h) hr hc he hw ?_
      cases hrun : K.run x [input.bytes] with
      | ok o => rw [hrun] at hout; exact congrArg _ (Except.ok.inj hout)
      | error e => rw [hrun] at hout; cases hout

/-! A coder that copies meets both assumptions. -/

theorem copyCoder_ignores (y : Unit) : copyCoder.machine.Ignores y [] := ⟨(), rfl, fun _ => rfl⟩

theorem copyCoder_run (ds : List Buffer) : copyCoder.run () ds = .ok ds.flatten := by
  have hfrom : copyCoder.machine.runFrom () ds = .ok ds.flatten := by
    induction ds with
    | nil => rfl
    | cons d ds ih =>
      rw [Transducer.Machine.runFrom_of_feed (o := d) (y := ()) rfl, ih]
      rfl
  rw [Coder.run, Transducer.Machine.run_of_start (o := []) (y := ()) rfl, hfrom]
  rfl

theorem copyCoder_seamless : copyCoder.machine.Seamless () := by
  intro ds es _ _ heq
  have hds := copyCoder_run ds
  have hes := copyCoder_run es
  unfold Coder.run at hds hes
  rw [hds, hes, heq]

/-- Three bytes go through the asynchronous function, and as two chunks through a stream that
is flushed in between. -/
theorem async_refines_sync_copy :
    Inevitable (VcdiffBuffer.Progress copyCoder) (fun w => w.results = [.ok [1, 2, 3]])
        (vcdiffBuffer (.init .decode (.ofInt 4096) 16384 ()) (.buffer [1, 2, 3])) ∧
      ∃ s, Reaches (Engine.step copyCoder) (fun s a => a.inTime s)
          (.init .decode (.ofInt 4096) 16384 ()) s ∧ .flush 0 ∈ s.log ∧
        Inevitable (Engine.Progress copyCoder)
          (fun t => .endEvent ∈ t.log ∧ t.log.pushed = [1, 2, 3]) s := by
  obtain ⟨r, hsync, h⟩ := async_refines_sync copyCoder () .decode (.ofInt 4096) (.buffer [1, 2, 3])
  have hr : r = .ok [1, 2, 3] :=
    (Option.some.inj (hsync.symm.trans (sync_eq_run copyCoder () _ _ _ _))).trans
      (by rw [copyCoder_run]; rfl)
  subst hr
  obtain ⟨hone, hstream⟩ := h fun y _ => copyCoder_ignores y
  have hrun : ∃ s, Reaches (Engine.step copyCoder) (fun s a => a.inTime s)
      (.init .decode (.ofInt 4096) 16384 ()) s ∧ s.log.ClosedAtEnd ∧ s.ws.ending = true ∧
        s.log.written = [1, 2, 3] ∧ .flush 0 ∈ s.log :=
    Transition.exists_reaches [.write [1], .run, .flush true, .write [2, 3], .endWritable]
      (by decide +kernel)
  obtain ⟨s, hs, hc, he, hw, hf⟩ := hrun
  exact ⟨(hone _ .refl).2, s, hs, hf, (hstream copyCoder_seamless s hs hc he hw).2 _ rfl⟩

end NodeVcdiff
