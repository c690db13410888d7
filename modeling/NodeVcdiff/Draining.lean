import NodeVcdiff.FlushCallbacks

/-!
# Flushes parked on 'drain'

'drain' is emitted behind a chunk that leaves the queue empty, but not behind the last chunk
of an ended stream. Flushes parked when `end()` is called are heard of only if an empty chunk
is the last one in the queue: the chunk before it then leaves no byte behind.
-/

namespace NodeVcdiff

open Script (Number)
open Transition (Reaches anyStep)

namespace Engine

variable {σ : Type*} {K : Coder σ} {s s' s'' : Engine σ} {a : Act}

/-- 'drain' is still to come: a completion that will emit it is on the stack, or an empty
chunk is the last one in the queue. -/
def Coming (s : Engine σ) : Prop :=
  (∃ callback, .afterWrite false callback ∈ s.stack) ∧ s.ws.length = 0 ∨
    ∃ rest req, s.ws.bufferedRequest = rest ++ [req] ∧ req.chunk = [] ∧
      (rest = [] → s.ws.writing.isSome)

/-- Flushes are parked only while `needDrain` is set, and once the stream is ending only
while 'drain' is still to come. -/
structure Parked (s : Engine σ) : Prop where
  armed : s.drainListeners ≠ [] → s.ws.needDrain = true
  coming : s.ws.ending = true → (∃ id, some id ∈ s.drainListeners) → s.Coming

/-- The step from `s` to `s'` left the write queue and the parked flushes alone. -/
structure Bypass (s s' : Engine σ) : Prop where
  ws : s'.ws = s.ws
  drainListeners : s'.drainListeners = s.drainListeners
  stack : s.stack <:+ s'.stack

theorem Bypass.of_cons {f : Frame} (hw : s'.ws = s.ws)
    (hd : s'.drainListeners = s.drainListeners) (hs : s'.stack = f :: s.stack) : Bypass s s' :=
  ⟨hw, hd, hs ▸ List.suffix_cons _ _⟩

theorem Bypass.of_eq (hw : s'.ws = s.ws) (hd : s'.drainListeners = s.drainListeners)
    (hs : s'.stack = s.stack) : Bypass s s' := ⟨hw, hd, hs ▸ List.suffix_rfl⟩

theorem Bypass.after {t : Engine σ} (h' : Bypass t s') (h : Bypass s t) : Bypass s s' :=
  ⟨h'.ws.trans h.ws, h'.drainListeners.trans h.drainListeners, h.stack.trans h'.stack⟩

theorem bypass_callUser (callback : Option ℕ) (ok : Bool) :
    Bypass s (s.callUser callback ok) := by
  cases callback <;> exact .of_cons rfl rfl rfl

theorem bypass_close (callback : Option ℕ) : Bypass s (s.close callback) := by
  cases callback <;> cases hc : s.vcd.closed <;> cases hh : s.vcd.handle <;>
    exact .of_eq (by simp [Engine.close, hc, hh, note, nextTick])
      (by simp [Engine.close, hc, hh, note, nextTick])
      (by simp [Engine.close, hc, hh, note, nextTick])

theorem bypass_emitEnd : Bypass s s.emitEnd := by
  refine (bypass_close none).after (t := { s with
    rs.endEmitted := true, endListeners := []
    stack := .user :: .endListeners s.endListeners :: s.stack
    log := .endEvent :: s.log }) ?_
  exact ⟨rfl, rfl, [.user, .endListeners s.endListeners], rfl⟩

theorem bypass_afterShim : Bypass s s.afterShim := by
  unfold afterShim
  dsimp only
  split
  · exact ⟨rfl, rfl, [.user, .sendError], rfl⟩
  · split
    · unfold callback
      split
      · exact .of_cons rfl rfl rfl
      · exact ⟨rfl, rfl, [.user, .cb _, .afterShim], rfl⟩
    · exact .of_cons rfl rfl rfl

theorem Coming.grow (h : s.Coming) (hl : s'.ws.length = s.ws.length)
    (hw : s'.ws.writing = s.ws.writing) (hb : s'.ws.bufferedRequest = s.ws.bufferedRequest)
    (hs : s.stack ⊆ s'.stack) : s'.Coming := by
  rcases h with ⟨⟨callback, hm⟩, hlen⟩ | hq
  · exact .inl ⟨⟨callback, hs hm⟩, hl.trans hlen⟩
  · refine .inr ?_
    rw [hb, hw]
    exact hq

theorem Parked.bypass {t : Engine σ} (h : s.Parked) (hb : Bypass s t) : t.Parked := by
  refine ⟨?_, ?_⟩
  · rw [hb.drainListeners, hb.ws]; exact h.armed
  · rw [hb.drainListeners, hb.ws]
    exact fun he hp => (h.coming he hp).grow (by rw [hb.ws]) (by rw [hb.ws]) (by rw [hb.ws])
      hb.stack.subset

/-- A step of a stream that is not ending. -/
theorem Parked.of_open (he : s.ws.ending = false)
    (ha : s.drainListeners ≠ [] → s.ws.needDrain = true) : s.Parked :=
  ⟨ha, fun hne => by rw [he] at hne; cases hne⟩

theorem Parked.write (h : s.Parked) (req : WriteReq) : (s.write req).Parked := by
  unfold Engine.write
  split
  · exact h.bypass (.of_cons rfl rfl rfl)
  · next he =>
    have he' : s.ws.ending = false := by simpa using he
    have hfields : (s.writeOrBuffer req).ws.ending = s.ws.ending ∧
        (s.writeOrBuffer req).drainListeners = s.drainListeners ∧
        (s.ws.needDrain = true → (s.writeOrBuffer req).ws.needDrain = true) := by
      unfold writeOrBuffer doWrite
      dsimp only
      split <;> exact ⟨rfl, rfl, fun hn => by simp [hn]⟩
    obtain ⟨h1, h2, h3⟩ := hfields
    exact .of_open (h1.trans he') fun hd => h3 (h.armed (h2 ▸ hd))

theorem Parked.flush (h : s.Parked) (callback : Option ℕ) : (s.flush callback).Parked := by
  unfold Engine.flush
  split
  · cases callback <;> exact h.bypass (.of_eq rfl rfl rfl)
  · split
    · cases callback <;> exact h.bypass (.of_eq rfl rfl rfl)
    · next he =>
      split
      · next hn => exact .of_open (by simpa using he) fun _ => hn
      · exact (h.bypass (t := { s with vcd.forceFlush := true }) (.of_eq rfl rfl rfl)).write _

/-- A chunk is done: if only the empty chunk is left, this completion will emit 'drain'. -/
theorem Parked.onwrite (h : s.Parked) (hlen : s.ws.length =
    ((s.ws.writing.toList ++ s.ws.bufferedRequest).flatMap WriteReq.chunk).length) (sync : Bool) :
    (s.onwrite none sync).Parked := by
  unfold Engine.onwrite
  split
  · exact h
  · next req hw =>
    have hcoming : s.ws.ending = true → (∃ id, some id ∈ s.drainListeners) →
        ∀ t : Engine σ, t.ws.length = s.ws.length - req.chunk.length → t.ws.writing = none →
          t.ws.bufferedRequest = s.ws.bufferedRequest → s.stack ⊆ t.stack →
          (s.ws.bufferedRequest ≠ [] → .afterWrite false req.callback ∈ t.stack) → t.Coming := by
      intro he hp t h1 h2 h3 h4 h5
      rcases h.coming he hp with ⟨⟨callback, hm⟩, hl⟩ | ⟨rest, r, hq, hr, -⟩
      · exact .inl ⟨⟨callback, h4 hm⟩, by rw [h1, hl]; omega⟩
      · cases rest with
        | nil =>
          refine .inl ⟨⟨_, h5 (by rw [hq]; simp)⟩, ?_⟩
          rw [h1, hlen, hw, hq]
          simp [hr]
        | cons r' rest =>
          exact .inr ⟨r' :: rest, r, h3.trans hq, hr, fun hn => by cases hn⟩
    dsimp only
    split
    · refine ⟨h.armed, fun he hp => hcoming he hp _ rfl rfl rfl ?_ fun _ => by simp⟩
      exact fun f hf => List.mem_cons_of_mem _ (List.mem_cons_of_mem _ hf)
    · refine ⟨h.armed, fun he hp => hcoming he hp _ rfl rfl rfl ?_ fun hq => ?_⟩
      · exact fun f hf => List.mem_cons_of_mem _ hf
      · cases hb : s.ws.bufferedRequest with
        | nil => exact absurd hb hq
        | cons r rs => simp [needFinish]

theorem Parked.transformCb (h : s.Parked) (hlen : s.ws.length =
    ((s.ws.writing.toList ++ s.ws.bufferedRequest).flatMap WriteReq.chunk).length)
    (k : TransformCb) (sync : Bool) : (s.transformCb k none sync).Parked := by
  cases k with
  | afterTransform =>
    exact (h.bypass (t := { s.note (.transformCb .afterTransform true) with
      ts.transforming := false }) (.of_eq rfl rfl rfl)).onwrite hlen sync
  | done => exact h.bypass (.of_cons rfl rfl rfl)

/-- A frame other than `afterWrite` is taken from the stack. -/
theorem Parked.pop (h : s.Parked) {f : Frame} {fs : List Frame} (hs : s.stack = f :: fs)
    (hf : ∀ finished callback, f ≠ .afterWrite finished callback) :
    ({ s with stack := fs } : Engine σ).Parked := by
  refine ⟨h.armed, fun he hp => ?_⟩
  rcases h.coming he hp with ⟨⟨callback, hm⟩, hl⟩ | hq
  · rw [hs] at hm
    exact .inl ⟨⟨callback, (List.mem_cons.mp hm).resolve_left fun hh => hf _ _ hh.symm⟩, hl⟩
  · exact .inr hq

/-- A completion that emits no 'drain' leaves it to come. -/
theorem Parked.afterWrite (h : s.Parked) {fs : List Frame} {finished : Bool}
    {callback : Option ℕ} (hs : s.stack = .afterWrite finished callback :: fs) :
    (({ s with stack := fs } : Engine σ).runFrame (.afterWrite finished callback)).Parked := by
  simp only [runFrame]
  split
  · refine ⟨fun hne => absurd rfl hne, ?_⟩
    rintro _ ⟨id, hid⟩
    cases hid
  · next hno =>
    refine ⟨h.armed, ?_⟩
    rintro he ⟨id, hid⟩
    rcases h.coming he ⟨id, hid⟩ with ⟨⟨c, hm⟩, hl⟩ | hq
    · rw [hs] at hm
      rcases List.mem_cons.mp hm with hh | hm
      · -- this completion would have emitted it
        obtain ⟨rfl, -⟩ : false = finished ∧ c = callback := by simpa using hh
        have hn : s.ws.needDrain = true := h.armed (List.ne_nil_of_mem hid)
        exact absurd (by simp [hl, hn]) hno
      · exact .inl ⟨⟨c, List.mem_cons_of_mem _ hm⟩, hl⟩
    · exact .inr hq

/-- `clearBuffer` starts the next chunk. -/
theorem Parked.clearBuffer (h : s.Parked) : (s.runFrame .clearBuffer).Parked := by
  simp only [runFrame]
  split
  · next req rest hw hq =>
    refine ⟨h.armed, fun he hp => ?_⟩
    rcases h.coming he hp with ⟨⟨c, hm⟩, hl⟩ | ⟨rest', r, hb, hr, hne⟩
    · exact .inl ⟨⟨c, List.mem_cons_of_mem _ hm⟩, hl⟩
    · cases rest' with
      | nil =>
        have hsome := hne rfl
        rw [hw] at hsome
        cases hsome
      | cons r' rest' =>
        rw [hq] at hb
        exact .inr ⟨rest', r, (List.cons.inj hb).2, hr, fun _ => rfl⟩
  · exact ⟨h.armed, fun he hp => (h.coming he hp).grow rfl rfl rfl (fun _ hf => hf)⟩

theorem Parked.runFrame (h : s.Parked) (hlen : s.ws.length =
    ((s.ws.writing.toList ++ s.ws.bufferedRequest).flatMap WriteReq.chunk).length)
    {f : Frame} {fs : List Frame} (hs : s.stack = f :: fs) :
    (({ s with stack := fs } : Engine σ).runFrame f).Parked := by
  cases f with
  | afterWrite finished callback => exact h.afterWrite hs
  | user => exact h.pop hs (by simp)
  | cb k => exact (h.pop hs (by simp)).transformCb hlen k false
  | clearBuffer => exact (h.pop hs (by simp)).clearBuffer
  | drain listeners =>
    have hp := h.pop hs (by simp)
    cases listeners with
    | nil => exact hp
    | cons callback rest =>
      exact (hp.bypass (t := { s with stack := .user :: .drain rest :: fs })
        ⟨rfl, rfl, [.user, .drain rest], rfl⟩).flush callback
  | writeCb callback =>
    exact (h.pop hs (by simp)).bypass ((bypass_callUser _ _).after (.of_cons rfl rfl rfl))
  | finishMaybe =>
    have hp := h.pop hs (by simp)
    simp only [Engine.runFrame]
    split
    · refine ⟨hp.armed, fun he hw => (hp.coming he hw).grow rfl rfl rfl ?_⟩
      exact fun f hf => List.mem_cons_of_mem _ hf
    · exact hp
  | ended =>
    have hp := h.pop hs (by simp)
    exact ⟨hp.armed, fun he hw => (hp.coming he hw).grow rfl rfl rfl (fun _ hf => hf)⟩
  | emitError e => exact (h.pop hs (by simp)).bypass (.of_cons rfl rfl rfl)
  | endListeners ids =>
    have hp := h.pop hs (by simp)
    cases ids with
    | nil => exact hp
    | cons id ids =>
      exact hp.bypass ((bypass_callUser (some id) true).after
        (t := { s with stack := .endListeners ids :: fs }) (.of_cons rfl rfl rfl))
  | afterShim | sendError => exact (h.pop hs (by simp)).bypass (.of_eq rfl rfl rfl)

/-- When `end()` is called, no flush callback is parked on 'drain', or the last chunk in the
queue is empty. -/
def Act.heedsParked (s : Engine σ) : Act → Prop
  | .endWritable => s.ws.ending = false → (∀ callback ∈ s.drainListeners, callback = none) ∨
      ∃ req ∈ s.ws.bufferedRequest.getLast?, req.chunk = []
  | _ => True

instance (s : Engine σ) : ∀ a : Act, Decidable (a.heedsParked s)
  | .endWritable => inferInstanceAs (Decidable (s.ws.ending = false →
      (∀ callback ∈ s.drainListeners, callback = none) ∨
        ∃ req ∈ s.ws.bufferedRequest.getLast?, req.chunk = []))
  | .write _ | .flush _ | .close _ | .demand _ | .read | .work | .afterShim | .tick
  | .emitEnd | .run => .isTrue trivial

theorem Parked.endWritable (h : s.Parked) (hq : s.ws.writing = none → s.ws.bufferedRequest = [])
    (hok : Act.endWritable.heedsParked s) : s.endWritable.Parked := by
  unfold Engine.endWritable
  split
  · exact h
  · next he =>
    refine ⟨h.armed, fun _ ⟨id, hid⟩ => ?_⟩
    rcases hok (by simpa using he) with hno | ⟨req, hlast, hreq⟩
    · cases hno _ hid
    · obtain ⟨rest, hrest⟩ := List.getLast?_eq_some_iff.mp hlast
      refine .inr ⟨rest, req, hrest, hreq, fun _ => ?_⟩
      by_contra hw
      have hnil := hq (by simpa using hw)
      rw [hrest] at hnil
      simp at hnil

theorem Parked.userCall (h : s.Parked) (hq : s.ws.writing = none → s.ws.bufferedRequest = [])
    (hok : a.heedsParked s) : (s.userCall a).Parked := by
  cases a with
  | write chunk => exact h.write _
  | flush hasCallback =>
    cases hasCallback with
    | false => exact h.flush none
    | true =>
      exact (h.bypass (t := ({ s with nextFlush := s.nextFlush + 1 } : Engine σ).note
        (.flush s.nextFlush)) (.of_eq rfl rfl rfl)).flush _
  | endWritable => exact h.endWritable hq hok
  | close hasCallback =>
    cases hasCallback
    · exact h.bypass (bypass_close none)
    · exact h.bypass ((bypass_close (some s.nextClose)).after (.of_eq rfl rfl rfl))
  | demand | read => exact h.bypass (.of_eq rfl rfl rfl)
  | _ => exact h

/-- Every step keeps that. -/
theorem Parked.step (hi : s.Invariant) (h : s.log.Refused ∨ s.Parked) (hok : a.heedsParked s)
    (hs : step K s a = some s') : s'.log.Refused ∨ s'.Parked := by
  rcases h with ⟨k, hk⟩ | h
  · exact .inl ⟨k, (step_log hi.shape hs).mem hk⟩
  rcases hi.clearing with ⟨k, hk⟩ | hcl
  · exact .inl ⟨k, (step_log hi.shape hs).mem hk⟩
  have hlen : s.ws.length =
      ((s.ws.writing.toList ++ s.ws.bufferedRequest).flatMap WriteReq.chunk).length :=
    hi.sound.held.length_eq
  obtain ⟨-, hm⟩ := step_moves hs
  cases hm with
  | work => exact .inr (h.bypass (.of_eq rfl rfl rfl))
  | workFail => exact .inr (h.bypass (.of_eq rfl rfl rfl))
  | afterShim => exact .inr (h.bypass bypass_afterShim)
  | emitEnd => exact .inr (h.bypass bypass_emitEnd)
  | @calling c hc =>
    cases hclosed : s.vcd.closed with
    | true =>
      refine (runCalling_closed c hclosed).imp_right fun he => h.bypass ?_
      exact .of_eq (by rw [he]) (by rw [he]) (by rw [he])
    | false =>
      have hside := runCalling_aside c hclosed
      exact .inr (h.bypass (.of_eq hside.ws hside.drainListeners hside.stack))
  | frame hc hst => exact .inr (h.runFrame hlen hst)
  | @tick t ts ht hl =>
    right
    have h' : ({ s with ticks := ts } : Engine σ).Parked := h.bypass (.of_eq rfl rfl rfl)
    cases t with
    | transformCb k => exact h'.transformCb hlen k false
    | flushCb id => exact h'.bypass (bypass_callUser (some id) true)
    | writeError callback => exact h'.bypass (bypass_callUser callback false)
    | closeCb id => exact h'.bypass (.of_cons rfl rfl rfl)
    | emitClose => exact h'.bypass (.of_cons rfl rfl rfl)
  | user _ hu => exact .inr (h.userCall (hcl.idle (hcl.of_userPoint hu)) hok)

end Engine

end NodeVcdiff
