import NodeVcdiff.Deliveries
import NodeVcdiff.FlushOnce

/-!
# A flush callback means flushed

A flush callback rides on an empty chunk, waits for 'end', or goes straight into the tick
queue. When it is due, the bytes accepted before its flush have been delivered: behind an
empty chunk because it drives out everything in front of it, at 'end' because nothing is
left; in the tick queue only if nothing was pending when it was put there.
-/

namespace NodeVcdiff

open Script (Number)
open Transition (Reaches anyStep)

namespace History

variable {h new : History} {id : ℕ}

/-- How many bytes had been accepted when `flush` was called with the callback `id`. -/
def flushedAt (id : ℕ) : History → ℕ
  | [] => 0
  | .flush i :: h => if i = id then (written h).length else flushedAt id h
  | _ :: h => flushedAt id h

/-- Everything accepted before the flush `id` was delivered. -/
def Flushed (id : ℕ) (h : History) : Prop := flushedAt id h ≤ (delivered h).length

/-- The user did not close the stream, and no native error was reported. -/
def Smooth (h : History) : Prop := h.ClosedAtEnd ∧ h.nativeErrors = []

instance (h : History) : Decidable (Smooth h) := inferInstanceAs (Decidable (_ ∧ _))

theorem Smooth.of_append (new : History) (hs : History.Smooth (new ++ h)) : h.Smooth := by
  refine ⟨fun older ho => hs.1 older (ho.trans (List.suffix_append _ _)), ?_⟩
  have hne := hs.2
  rw [nativeErrors, List.filterMap_append, List.append_eq_nil_iff] at hne
  exact hne.2

theorem flushedAt_le (id : ℕ) (h : History) : flushedAt id h ≤ (written h).length := by
  induction h with
  | nil => exact le_rfl
  | cons e h ih =>
    cases e with
    | accept c => exact ih.trans (by simp [written])
    | flush i =>
      rw [flushedAt]
      split
      · exact le_rfl
      · exact ih
    | _ => exact ih

theorem flushedAt_append (hn : .flush id ∉ new) : flushedAt id (new ++ h) = flushedAt id h := by
  induction new with
  | nil => rfl
  | cons e new ih =>
    have hrest := ih fun hm => hn (List.mem_cons_of_mem _ hm)
    cases e with
    | flush i =>
      rw [List.cons_append, flushedAt, if_neg fun hi => hn (by rw [hi]; exact List.mem_cons_self)]
      exact hrest
    | _ => exact hrest

theorem Flushed.append (hf : Flushed id h) (new : History) (hn : .flush id ∉ new) : Flushed id (new ++ h) := by
  unfold Flushed
  rw [flushedAt_append hn]
  exact le_trans hf (delivered_isPrefix new h).length_le

theorem written_isPrefix (new h : History) : written h <+: written (new ++ h) := by
  induction new with
  | nil => exact List.prefix_rfl
  | cons e new ih =>
    cases e with
    | accept c => exact ih.trans (List.prefix_append _ _)
    | _ => exact ih

/-- A later call with the same number does not matter. -/
theorem le_flushedAt (id : ℕ) (between older : History) :
    (written older).length ≤ flushedAt id (between ++ .flush id :: older) := by
  induction between with
  | nil => simp [flushedAt]
  | cons e between ih =>
    cases e with
    | flush i =>
      rw [List.cons_append, flushedAt]
      split
      · have hpre := written_isPrefix (between ++ [.flush id]) older
        rw [List.append_assoc, List.singleton_append] at hpre
        exact hpre.length_le
      · exact ih
    | _ => exact ih

end History

/-- The flush callback `id` is called when the frame runs. -/
def Frame.due (id : ℕ) : Frame → Prop
  | .writeCb callback | .afterWrite _ callback => callback = some id
  | .endListeners ids => id ∈ ids
  | _ => False

/-- An event that neither accepts bytes nor belongs to a flush, failed ones apart. -/
def Event.isSteady : Event → Bool
  | .accept _ | .flush _ | .flushCb _ true => false
  | _ => true

namespace Engine

variable {σ : Type*} {K : Coder σ} {s s' s'' : Engine σ} {a : Act} {id : ℕ}

/-- The flush callback `id` will be called without being looked at again. -/
def Due (s : Engine σ) (id : ℕ) : Prop := .flushCb id ∈ s.ticks ∨ ∃ f ∈ s.stack, f.due id

/-- The chunks that are current or queued. -/
def reqs (s : Engine σ) : List WriteReq := s.ws.writing.toList ++ s.ws.bufferedRequest

/-- Callbacks that are due mean flushed; those that ride on an empty chunk have all bytes
they wait for in front of it; and those called were right. -/
structure Timely (s : Engine σ) : Prop where
  due : s.log.Smooth → ∀ id, s.Due id → History.Flushed id s.log
  reqs : s.log.Smooth → ∀ l req r id, s.reqs = l ++ req :: r → req.callback = some id →
    req.chunk = [] ∧
      History.flushedAt id s.log + (r.flatMap WriteReq.chunk).length ≤ s.log.written.length
  called : ∀ newer id older, s.log = newer ++ .flushCb id true :: older → History.Smooth older →
    History.Flushed id older ∧ History.delivered older <+: History.written older

/-- The step from `s` to `s'` accepts nothing, calls no flush callback, and makes due only
callbacks that may be. -/
structure Steady (s s' : Engine σ) : Prop where
  log : ∃ new : History, s'.log = new ++ s.log ∧ ∀ e ∈ new, e.isSteady = true
  due : ∀ id, s'.Due id → s.Due id ∨ (s'.log.Smooth → History.Flushed id s'.log)
  reqs : s'.reqs <:+ s.reqs

theorem Timely.steady {t : Engine σ} (h : s.Timely) (hs : Steady s t) : t.Timely := by
  obtain ⟨new, hlog, hn⟩ := hs.log
  have hflush : ∀ id, .flush id ∉ new := fun id hm => by cases hn _ hm
  have hwritten : t.log.written = s.log.written := by
    rw [hlog]
    exact History.written_append fun c hc => by cases hn _ hc
  have hsmooth : t.log.Smooth → s.log.Smooth := fun hx => by
    rw [hlog] at hx
    exact hx.of_append new
  refine ⟨fun hx id hd => ?_, fun hx l req r id heq hcb => ?_, fun newer id older heq hx => ?_⟩
  · rcases hs.due id hd with hd | hf
    · rw [hlog]
      exact (h.due (hsmooth hx) id hd).append new (hflush id)
    · exact hf hx
  · obtain ⟨pre, hpre⟩ := hs.reqs
    obtain ⟨h1, h2⟩ := h.reqs (hsmooth hx) (pre ++ l) req r id
      (by rw [← hpre, heq, List.append_assoc]) hcb
    rw [hwritten, hlog, History.flushedAt_append (hflush id)]
    exact ⟨h1, h2⟩
  · rw [hlog] at heq
    rcases History.split_append heq with ⟨mid, hh⟩ | ⟨hm, -⟩
    · exact h.called mid id older hh hx
    · cases hn _ hm

/-- A callback that is due is called. -/
theorem Timely.note_called (h : s.Timely) (hd : s.Due id)
    (hpre : s.log.delivered <+: s.log.written) : (s.note (.flushCb id true)).Timely := by
  have hsmooth : (s.note (.flushCb id true)).log.Smooth → s.log.Smooth :=
    fun hx => History.Smooth.of_append [.flushCb id true] hx
  refine ⟨fun hx => h.due (hsmooth hx), fun hx => h.reqs (hsmooth hx), ?_⟩
  intro newer i older heq hx
  rcases newer with _ | ⟨e, newer⟩
  · obtain ⟨he, rfl⟩ := List.cons.inj heq
    obtain rfl : id = i := by simpa using he
    exact ⟨h.due hx id hd, hpre⟩
  · exact h.called newer i older (List.cons.inj heq).2 hx

/-- A new callback is passed to `flush`. -/
theorem Timely.note_flush (h : s.Timely) (hd : ¬ s.Due id)
    (hr : ∀ req ∈ s.reqs, req.callback ≠ some id) : (s.note (.flush id)).Timely := by
  have hsmooth : (s.note (.flush id)).log.Smooth → s.log.Smooth :=
    fun hx => History.Smooth.of_append [.flush id] hx
  have hother : ∀ i, i ≠ id → .flush i ∉ [Event.flush id] := fun i hi hm => by
    simp at hm
    exact hi hm
  refine ⟨fun hx i hi => ?_, fun hx l req r i heq hcb => ?_, fun newer i older heq hx => ?_⟩
  · have hne : i ≠ id := fun he => hd (he ▸ hi)
    exact (h.due (hsmooth hx) i hi).append _ (hother i hne)
  · have hne : i ≠ id := fun he => by
      refine hr req ?_ (he ▸ hcb)
      have hmem : req ∈ l ++ req :: r := by simp
      exact heq ▸ hmem
    obtain ⟨h1, h2⟩ := h.reqs (hsmooth hx) l req r i heq hcb
    refine ⟨h1, ?_⟩
    have hat := History.flushedAt_append (h := s.log) (hother i hne)
    exact hat ▸ h2
  · rcases newer with _ | ⟨e, newer⟩
    · cases (List.cons.inj heq).1
    · exact h.called newer i older (List.cons.inj heq).2 hx

/-- A chunk is accepted; one with a flush callback is empty. -/
theorem Timely.writeOrBuffer (h : s.Timely) {req : WriteReq}
    (he : req.callback ≠ none → req.chunk = [])
    (hq : s.ws.writing = none → s.ws.bufferedRequest = []) : (s.writeOrBuffer req).Timely := by
  have hfields : (s.writeOrBuffer req).log = .accept req.chunk :: s.log ∧
      (s.writeOrBuffer req).ticks = s.ticks ∧ (s.writeOrBuffer req).stack = s.stack ∧
      (s.writeOrBuffer req).reqs = s.reqs ++ [req] := by
    unfold Engine.writeOrBuffer Engine.reqs doWrite
    dsimp only
    split
    · exact ⟨rfl, rfl, rfl, by simp⟩
    · next hw =>
      have hnone : s.ws.writing = none := by simpa using hw
      exact ⟨rfl, rfl, rfl, by simp [hnone, hq hnone]⟩
  obtain ⟨f1, f2, f3, f4⟩ := hfields
  have hsmooth : (s.writeOrBuffer req).log.Smooth → s.log.Smooth := fun hx => by
    rw [f1] at hx
    exact History.Smooth.of_append [.accept req.chunk] hx
  refine ⟨fun hx id hd => ?_, fun hx l r rest id heq hcb => ?_, fun newer id older heq hx => ?_⟩
  · rw [f1]
    refine History.Flushed.append (h.due (hsmooth hx) id ?_) [.accept req.chunk] (by simp)
    rw [Due, f2, f3] at hd
    exact hd
  · rw [f4] at heq
    have hat : History.flushedAt id (.accept req.chunk :: s.log) = History.flushedAt id s.log := rfl
    have hlen : (History.written (.accept req.chunk :: s.log)).length =
        s.log.written.length + req.chunk.length := List.length_append
    rw [f1, hat, hlen]
    rcases List.eq_nil_or_concat' rest with rfl | ⟨rest, last, rfl⟩
    · -- the new chunk itself
      obtain ⟨-, hlast⟩ := List.append_inj' heq rfl
      obtain rfl : req = r := by simpa using hlast
      have hle := History.flushedAt_le id s.log
      refine ⟨he (by rw [hcb]; simp), ?_⟩
      rw [List.flatMap_nil, List.length_nil]
      omega
    · have hsplit : s.reqs ++ [req] = (l ++ r :: rest) ++ [last] := by
        rw [heq, List.append_assoc, List.cons_append]
      obtain ⟨hold, hlast⟩ := List.append_inj' hsplit rfl
      obtain rfl : req = last := by simpa using hlast
      obtain ⟨h1, h2⟩ := h.reqs (hsmooth hx) l r rest id hold hcb
      refine ⟨h1, ?_⟩
      rw [List.flatMap_append, List.length_append, List.flatMap_singleton]
      omega
  · rw [f1] at heq
    rcases newer with _ | ⟨e, newer⟩
    · cases (List.cons.inj heq).1
    · exact h.called newer id older (List.cons.inj heq).2 hx

/-! ## Steps that leave flushes alone -/

theorem Steady.after (h' : Steady s' s'') (h : Steady s s') : Steady s s'' := by
  obtain ⟨new, hlog, hn⟩ := h.log
  obtain ⟨new', hlog', hn'⟩ := h'.log
  refine ⟨⟨new' ++ new, ?_, ?_⟩, fun id hd => ?_, h'.reqs.trans h.reqs⟩
  · rw [hlog', hlog, List.append_assoc]
  · exact fun e he => (List.mem_append.mp he).elim (hn' e) (hn e)
  · rcases h'.due id hd with hd | hf
    · refine (h.due id hd).imp_right fun hf hx => ?_
      rw [hlog'] at hx ⊢
      exact (hf (hx.of_append new')).append new' fun hm => by cases hn' _ hm
    · exact .inr hf

/-- Frames, ticks and events are added that have nothing to do with a flush. -/
theorem Steady.of_push (new : History) (fs : List Frame) (ts : List Tick)
    (hlog : s'.log = new ++ s.log) (hst : s'.stack = fs ++ s.stack)
    (htk : s'.ticks = s.ticks ++ ts) (hreqs : s'.reqs = s.reqs)
    (hn : ∀ e ∈ new, e.isSteady = true) (hf : ∀ f ∈ fs, ∀ id, ¬ f.due id)
    (ht : ∀ id, .flushCb id ∉ ts) : Steady s s' := by
  refine ⟨⟨new, hlog, hn⟩, fun id hd => .inl ?_, hreqs ▸ List.suffix_rfl⟩
  unfold Due at hd ⊢
  rw [hst, htk] at hd
  rcases hd with hd | ⟨f, hfm, hfd⟩
  · exact .inl ((List.mem_append.mp hd).resolve_right (ht id))
  · exact .inr ⟨f, (List.mem_append.mp hfm).resolve_left fun hh => hf f hh id hfd, hfd⟩

theorem Steady.of_frames (fs : List Frame) (hlog : s'.log = s.log)
    (hst : s'.stack = fs ++ s.stack) (htk : s'.ticks = s.ticks) (hreqs : s'.reqs = s.reqs)
    (hf : ∀ f ∈ fs, ∀ id, ¬ f.due id) : Steady s s' :=
  .of_push [] fs [] hlog hst (by rw [htk, List.append_nil]) hreqs (by simp) hf (by simp)

theorem Steady.of_eq (hlog : s'.log = s.log) (hst : s'.stack = s.stack)
    (htk : s'.ticks = s.ticks) (hreqs : s'.reqs = s.reqs) : Steady s s' :=
  .of_frames [] hlog hst htk hreqs (by simp)

theorem steady_note {e : Event} (he : e.isSteady = true) : Steady s (s.note e) :=
  .of_push [e] [] [] rfl rfl (by simp [note]) rfl (by simpa using he) (by simp) (by simp)

theorem steady_emit {e : Event} (he : e.isSteady = true) : Steady s (s.emit e) :=
  .of_push [e] [.user] [] rfl rfl (by simp [emit]) rfl (by simpa using he) (by simp [Frame.due])
    (by simp)

theorem steady_nextTick {t : Tick} (ht : ∀ id, t ≠ .flushCb id) : Steady s (s.nextTick t) :=
  .of_push [] [] [t] rfl rfl rfl rfl (by simp) (by simp) fun id hm =>
    ht id (List.mem_singleton.mp hm).symm

/-- A callback is called with an error, or there is none. -/
theorem steady_callUser (callback : Option ℕ) (ok : Bool) (hok : ok = true → callback = none) :
    Steady s (s.callUser callback ok) := by
  cases callback with
  | none => exact .of_frames [.user] rfl rfl rfl rfl (by simp [Frame.due])
  | some id =>
    cases ok with
    | true => cases hok rfl
    | false => exact steady_emit rfl

theorem steady_close (callback : Option ℕ) : Steady s (s.close callback) := by
  have htick : ∀ t : Engine σ, Steady t (t.nextTick .emitClose) := fun t =>
    steady_nextTick (by simp)
  have hclose : ∀ t : Engine σ, Steady t (t.close none) := by
    intro t
    cases hc : t.vcd.closed <;> cases hh : t.vcd.handle <;>
      simp only [Engine.close, note, nextTick, hc, hh, if_true, Bool.false_eq_true, if_false]
    · exact .of_push [.closeThrew, .close] [] [] rfl rfl (by simp) rfl (by simp [Event.isSteady])
        (by simp) (by simp)
    · exact .of_push [.nativeClose, .close] [] [.emitClose] rfl rfl rfl rfl
        (by simp [Event.isSteady]) (by simp) (by simp)
    · exact .of_push [.close] [] [] rfl rfl (by simp) rfl (by simp [Event.isSteady]) (by simp)
        (by simp)
    · exact .of_push [.close] [] [] rfl rfl (by simp) rfl (by simp [Event.isSteady]) (by simp)
        (by simp)
  cases callback with
  | none => exact hclose s
  | some id =>
    have heq : (s.close (some id)).log = ((s.nextTick (.closeCb id)).close none).log ∧
        (s.close (some id)).stack = ((s.nextTick (.closeCb id)).close none).stack ∧
        (s.close (some id)).ticks = ((s.nextTick (.closeCb id)).close none).ticks ∧
        (s.close (some id)).reqs = ((s.nextTick (.closeCb id)).close none).reqs := by
      cases hc : s.vcd.closed <;> cases hh : s.vcd.handle <;>
        simp [Engine.close, note, nextTick, hc, hh, Engine.reqs]
    obtain ⟨e1, e2, e3, e4⟩ := heq
    exact (Steady.of_eq e1 e2 e3 e4).after ((hclose _).after (steady_nextTick (by simp)))

theorem steady_endWritable : Steady s s.endWritable := by
  unfold Engine.endWritable
  split
  · exact .of_eq rfl rfl rfl rfl
  · exact .of_frames [.finishMaybe, .ended] rfl rfl rfl rfl (by simp [Frame.due])

/-- A chunk is refused. -/
theorem steady_onwrite (e : ErrorObject) (sync : Bool) : Steady s (s.onwrite (some e) sync) := by
  unfold onwrite
  split
  · exact .of_eq rfl rfl rfl rfl
  · next req hw =>
    set t : Engine σ := { s with
      ws.writing := none, ws.length := s.ws.length - req.chunk.length } with ht
    have hpop : Steady s t :=
      ⟨⟨[], rfl, by simp⟩, fun id hd => .inl hd, by simp [Engine.reqs, hw, ht]⟩
    dsimp only
    split
    · exact (steady_emit rfl).after ((steady_nextTick (by simp)).after hpop)
    · have hpush : Steady t { t with stack := .emitError e :: t.stack } :=
        .of_frames [.emitError e] rfl rfl rfl rfl (by simp [Frame.due])
      exact (steady_callUser req.callback false (by simp)).after (hpush.after hpop)

theorem steady_refuse (k : TransformCb) (e : ErrorObject) (sync : Bool) :
    Steady s (s.transformCb k (some e) sync) := by
  cases k with
  | afterTransform =>
    refine (steady_onwrite e sync).after ?_
    exact .of_push [.transformCb .afterTransform false] [] [] rfl rfl (by simp [note]) rfl
      (by simp [Event.isSteady]) (by simp) (by simp)
  | done => exact (steady_emit rfl).after (steady_note rfl)

theorem steady_runCalling (c : Calling) : Steady s (s.runCalling c) := by
  have hchunk : ∀ (t : Engine σ) (d : Buffer) (l ff : Bool) (k : TransformCb),
      Steady t (t.processChunk d l ff k) := by
    intro t d l ff k
    unfold processChunk nativeWrite
    dsimp only
    have htake : ∀ u : Engine σ, u.log = .take d :: t.log → u.stack = t.stack →
        u.ticks = t.ticks → u.reqs = t.reqs → Steady t u := fun u h1 h2 h3 h4 =>
      .of_push [.take d] [] [] h1 h2 (by rw [h3, List.append_nil]) h4 (by simp [Event.isSteady])
        (by simp) (by simp)
    split
    · split
      · exact htake _ rfl rfl rfl rfl
      · split
        · exact htake _ rfl rfl rfl rfl
        · exact (steady_note rfl).after (htake _ rfl rfl rfl rfl)
    · exact (steady_nextTick (by simp)).after (htake _ rfl rfl rfl rfl)
  have htransform : ∀ (t : Engine σ) (d : Buffer) (b sync : Bool) (k : TransformCb),
      Steady t (t.transform d b sync k) := by
    intro t d b sync k
    unfold transform
    dsimp only
    split
    · exact steady_refuse _ _ _
    · refine (hchunk _ _ _ _ _).after ?_
      split <;> exact .of_eq rfl rfl rfl rfl
  cases c with
  | transform sync =>
    simp only [runCalling]
    split
    · exact (htransform _ _ _ _ _).after (.of_eq rfl rfl rfl rfl)
    · exact .of_eq rfl rfl rfl rfl
  | flush => exact (htransform _ _ _ _ _).after (.of_eq rfl rfl rfl rfl)

theorem steady_afterShim : Steady s s.afterShim := by
  unfold afterShim
  dsimp only
  split
  · exact (steady_emit rfl).after
      (.of_frames [.sendError] rfl rfl rfl rfl (by simp [Frame.due]))
  · split
    · unfold callback
      split
      · exact .of_frames [.afterShim] rfl rfl rfl rfl (by simp [Frame.due])
      · exact (steady_emit rfl).after
          (.of_frames [.cb _, .afterShim] rfl rfl rfl rfl (by simp [Frame.due]))
    · exact .of_frames [.afterShim] rfl rfl rfl rfl (by simp [Frame.due])

end Engine

end NodeVcdiff
