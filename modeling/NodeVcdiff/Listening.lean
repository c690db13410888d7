import NodeVcdiff.OneShot

/-!
# Listening to a one-shot call

Whatever way the input takes through the stream, the coder is fed the whole input in one
piece, and empty pieces around it. What the listeners hear are the errors and the end.
-/

namespace NodeVcdiff

open Script (Number)
open Transition (Reaches anyStep Inevitable)

variable {σ : Type*} {K : Coder σ} {x : σ}

/-! ## One chunk on its way through the stream -/

namespace Engine

variable {s : Engine σ} {mode : Mode} {m : Number} {highWaterMark : ℤ}
  {ok : Engine σ → Act → Prop} {d : Buffer}

/-- A chunk that was written alone reaches the coder unbroken. -/
theorem chunks_whole (hr : Reaches (step K) ok (init mode m highWaterMark x) s)
    (href : ¬ s.log.Refused) (hacc : ∀ c, .accept c ∈ s.log → c = [] ∨ c = d)
    (hw : s.log.written = d) : ∀ b ∈ Call.chunks s.log.calls, b = [] ∨ b = d := by
  intro b hb
  have hcalls : s.core.log.calls = s.log.calls := History.flow_calls
  have hmem : b ∈ s.core.log.handedBuffers :=
    (fed_of_reaches hr).isPrefix.mem (hcalls.symm ▸ hb)
  obtain ⟨bs, hbs, rfl⟩ :=
    (composed_of_reaches hr (P := fun c => c = [] ∨ c = d) (.inl rfl) hacc).handed b hmem
  refine Transducer.flatten_whole hbs ?_
  have hpre := (Invariant.reaches hr).handed_isPrefix href
  have e1 : s.core.log.handed = s.log.handed := History.flow_handed
  rw [hw, ← e1, ← History.flatten_handedBuffers] at hpre
  exact (List.sublist_flatten_of_mem hmem).length_le.trans hpre.length_le

variable (hI : ∀ y, K.machine.Live x y → K.machine.Ignores y [])

include hI in
theorem run_whole {bs : List Buffer} (h : ∀ b ∈ bs, b = [] ∨ b = d) (hflat : bs.flatten = d) :
    K.run x [d] = K.run x bs := by
  refine Transducer.Machine.run_congr (p := fun b => !b.isEmpty) (fun y hy b hb => ?_)
    (Transducer.filter_whole h hflat).symm
  obtain rfl : b = [] := by simpa using hb
  exact hI y hy

include hI in
theorem run_of_ended_whole (hr : Reaches (step K) ok (init mode m highWaterMark x) s)
    (href : ¬ s.log.Refused) (hacc : ∀ c, .accept c ∈ s.log → c = [] ∨ c = d)
    (hw : s.log.written = d) (he : .endEvent ∈ s.log) : K.run x [d] = .ok s.log.pushed := by
  obtain ⟨hrun, hflat⟩ := run_of_ended hr he
  rw [← hrun]
  exact run_whole hI (chunks_whole hr href hacc hw) (hflat.trans hw)

include hI in
theorem run_of_failed_whole (hr : Reaches (step K) ok (init mode m highWaterMark x) s)
    (href : ¬ s.log.Refused) (hacc : ∀ c, .accept c ∈ s.log → c = [] ∨ c = d)
    (hw : s.log.written = d) (hf : s.log.hasFailed = true) :
    K.run x [d] = .error s.ctx.err := by
  obtain ⟨rest, hrun, hflat, hlen⟩ := run_of_failed hr href hf
  rw [← hrun]
  have hchunks := chunks_whole hr href hacc hw
  rw [hw] at hflat
  refine run_whole hI (fun b hb => ?_) hflat
  rcases List.mem_append.mp hb with hb | hb
  · exact hchunks b hb
  · -- the one piece left over is what the others leave of `d`
    obtain ⟨r, rfl⟩ : ∃ r, rest = [r] := by
      match rest, hlen, hb with
      | [r], _, _ => exact ⟨r, rfl⟩
    obtain rfl := List.mem_singleton.mp hb
    rw [List.flatten_append, List.flatten_singleton] at hflat
    have hle : (Call.chunks s.log.calls).flatten.length ≤ d.length := by
      rw [← hflat, List.length_append]
      omega
    rcases Transducer.flatten_whole hchunks hle with h0 | h0
    · rw [h0] at hflat; exact .inr hflat
    · rw [h0] at hflat; exact .inl (by simpa using hflat)

/-- Either no 'error' was emitted, or one for the coder's failure. -/
theorem errors_of_reaches (hok : ∀ s a, ok s a → a.inTime s)
    (hr : Reaches (step K) ok (init mode m highWaterMark x) s) (hc : s.log.ClosedAtEnd) :
    (∀ e, .error e ∉ s.log) ∨ s.log.hasFailed = true ∧
      s.log.nativeErrors = [nativeError s.ctx.err] ∧
      ∀ e, .error e ∈ s.log → e = nativeError s.ctx.err := by
  have h : s.Invariant := .reaches hr
  have href := h.not_refused hc
  have hra := raises_of_reaches hok hr
  have hmem : ∀ e, .error e ∈ s.log → e ∈ s.log.nativeErrors := fun e he =>
    List.mem_filterMap.mpr ⟨_, he, by
      simp [Event.nativeErrorOf, (hra e (.inl he)).resolve_right href]⟩
  by_cases hf : s.log.hasFailed = true
  · obtain ⟨newer, calls, older, heq, q, hq, hqf⟩ := History.exists_failing hf
    have herr : q.err = s.ctx.err := by
      have hcalls : s.core.log.calls = s.log.calls := History.flow_calls
      refine h.sound.coded.errorOf q ?_ hqf
      rw [hcalls, heq]
      exact History.mem_calls hq
    have herrors := (h.failure heq hq hqf).2.2
    rw [herr] at herrors
    by_cases hw : s.ctx.workReq.isSome
    · left
      intro e he
      have := hmem e he
      rw [herrors, if_pos hw] at this
      cases this
    · rw [if_neg hw] at herrors
      refine .inr ⟨hf, herrors, fun e he => ?_⟩
      have := hmem e he
      rw [herrors] at this
      exact List.mem_singleton.mp this
  · exact .inl (h.no_error (Bool.eq_false_iff.mpr hf) href hra)

theorem calls_append {older : History} (new : History) :
    History.calls (new ++ older) = older.calls ++ History.calls new := by
  induction new with
  | nil => exact (List.append_nil _).symm
  | cons e new ih =>
    cases e with
    | work cs => rw [List.cons_append, History.calls, ih, History.calls, List.append_assoc]
    | _ => exact ih

/-- Nothing is pushed after 'end'. -/
theorem Invariant.pushed_end {t : Engine σ} (h : s.Invariant) (ht : t.Invariant)
    (hlog : s.log <:+ t.log) (he : .endEvent ∈ s.log) : t.log.pushed = s.log.pushed := by
  obtain ⟨-, -, -, hp, o, ho⟩ := h.at_end (h.ended he)
  obtain ⟨-, -, -, hp', -⟩ := ht.at_end (ht.ended (hlog.mem he))
  obtain ⟨new, hnew⟩ := hlog
  have hcalls : t.log.calls = s.log.calls ++ History.calls new := by
    rw [← hnew]
    exact calls_append new
  obtain ⟨before, after, heq⟩ := List.append_of_mem ho
  have hproto : Protocol t.log.calls := by
    have e1 : t.core.log.calls = t.log.calls := History.flow_calls
    exact e1 ▸ ht.sound.coded.tracks.protocol
  -- the coder was finished, so it has not been called since
  have hnil : after ++ History.calls new = [] :=
    hproto.stops_only_last (by rw [hcalls, heq, List.append_assoc, List.cons_append]) rfl
  rw [hp', hp, History.appended, History.appended, hcalls, (List.append_eq_nil_iff.mp hnil).2,
    List.append_nil]

end Engine

namespace VcdiffBuffer

variable {w w' u : VcdiffBuffer σ} {mode : Mode} {m : Number} {highWaterMark : ℤ} {d : Buffer}
  {pre : List (Except ErrorObject Buffer)} {t : Engine σ} {new : History}

/-! ## Listening -/

theorem hear_quiet (hn : ∀ e ∈ new, e ≠ .endEvent ∧ ∀ err, e ≠ .error err) :
    new.foldr hear u = u := by
  induction new with
  | nil => rfl
  | cons e new ih =>
    obtain ⟨h1, h2⟩ := hn e List.mem_cons_self
    rw [List.foldr_cons, ih fun e' he' => hn e' (List.mem_cons_of_mem _ he')]
    cases e with
    | error err => exact absurd rfl (h2 err)
    | endEvent => exact absurd rfl h1
    | _ => rfl

theorem hear_one {newer older : History} {e : Event}
    (h1 : ∀ e ∈ newer, e ≠ .endEvent ∧ ∀ err, e ≠ .error err)
    (h2 : ∀ e ∈ older, e ≠ .endEvent ∧ ∀ err, e ≠ .error err) :
    (newer ++ e :: older).foldr hear u = u.hear e := by
  rw [List.foldr_append, List.foldr_cons, hear_quiet h2, hear_quiet h1]

/-- A step of the engine, and what is heard of it. -/
theorem perform_spec {a : Engine.Act} (hs : w.engine.Shape) (h : w.perform K a = some w') :
    ∃ t new, w.engine.step K a = some t ∧ t.log = new ++ w.engine.log ∧
      w' = new.foldr hear { (if a = .read then w.flowRead else w) with engine := t } := by
  obtain ⟨t, ht, rfl⟩ := Option.map_eq_some_iff.mp h
  obtain ⟨new, hnew⟩ := Engine.step_log hs ht
  refine ⟨t, new, ht, hnew.symm, ?_⟩
  have htake : t.log.take (t.log.length - w.engine.log.length) = new := by
    rw [← hnew, List.length_append, Nat.add_sub_cancel, List.take_left]
  simp only [htake]

/-- `flow` moves what was pushed into its own list. -/
theorem flowRead_spec (w : VcdiffBuffer σ) :
    w.flowRead.buffers.flatten = w.buffers.flatten ++ w.engine.rs.buffer.flatten ∧
      w.flowRead.nread = w.nread + w.engine.rs.buffer.flatten.length ∧
      w.flowRead.script = w.script ∧ w.flowRead.endListener = w.endListener ∧
      w.flowRead.results = w.results ∧ w.flowRead.flow = true := by
  unfold flowRead
  dsimp only
  split
  · next hb =>
    rw [List.isEmpty_iff] at hb
    simp [hb]
  · simp

theorem step_read {s : Engine σ} (h : Engine.step K s .read = some t) :
    t = { s with rs.buffer := [] } := by
  obtain ⟨-, hm⟩ := Engine.step_moves h
  cases hm with
  | user => rfl

theorem step_end {s : Engine σ} (h : Engine.step K s .endWritable = some t)
    (he : s.ws.ending = false) :
    t = { s with ws.ending := true, stack := .finishMaybe :: .ended :: s.stack } := by
  obtain ⟨-, hm⟩ := Engine.step_moves h
  cases hm with
  | user => simp [Engine.userCall, Engine.endWritable, he]

end VcdiffBuffer

end NodeVcdiff
