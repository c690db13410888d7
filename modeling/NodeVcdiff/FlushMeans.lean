import NodeVcdiff.Flushing
import NodeVcdiff.Outcome

/-!
# Flushing in time

Flushes looked at once the stream has ended are called back on the next tick. That is right
if nothing is pending then; everywhere else it is right anyway.
-/

namespace NodeVcdiff

open Script (Number)
open Transition (Reaches anyStep)

namespace Engine

variable {σ : Type*} {K : Coder σ} {s s' s'' t : Engine σ} {a : Act} {id : ℕ}

/-- Nothing is queued, gathered in `_buffers`, or under way in a native write. -/
def Emptied (s : Engine σ) : Prop :=
  s.ws.length = 0 ∧ s.vcd.nread = 0 ∧ s.core.underWay = []

instance (s : Engine σ) : Decidable s.Emptied :=
  inferInstanceAs (Decidable (_ = _ ∧ _ = _ ∧ _ = _))

theorem Invariant.not_refused_of_smooth (hi : s.Invariant) (hs : s.log.Smooth) :
    ¬ s.log.Refused := hi.not_refused hs.1

/-- What was handed over was delivered, but for what is under way. -/
theorem handed_eq (hd : s.core.Delivers) (hs : s.log.Smooth) :
    s.log.handed = s.log.delivered ++ s.core.underWay := by
  have e1 : s.core.log.handed = s.log.handed := History.flow_handed
  have e2 : s.core.log.delivered = s.log.delivered := History.flow_delivered
  have e3 : s.core.log.nativeErrors = s.log.nativeErrors := History.flow_nativeErrors
  rw [← e1, ← e2]
  exact hd.handed (e3.trans hs.2)

theorem delivered_isPrefix (hi : s.Invariant) (hd : s.core.Delivers) (hs : s.log.Smooth) :
    s.log.delivered <+: s.log.written := by
  refine List.IsPrefix.trans ?_ (hi.handed_isPrefix (hi.not_refused_of_smooth hs))
  rw [handed_eq hd hs]
  exact List.prefix_append _ _

/-- If nothing is pending, everything accepted was delivered. -/
theorem flushed_all (hi : s.Invariant) (hd : s.core.Delivers) (hs : s.log.Smooth)
    (he : s.Emptied) : s.log.written.length ≤ s.log.delivered.length := by
  obtain ⟨hlen, hread, hway⟩ := he
  have hheld := hi.sound.held
  have hw := hheld.written_eq fun hr => hi.not_refused_of_smooth hs (core_refused.mp hr)
  have hqueued : s.core.queued = [] := by
    have heq := hheld.length_eq
    rw [show s.core.length = s.ws.length from rfl, hlen] at heq
    exact List.eq_nil_of_length_eq_zero heq.symm
  have hwait : s.core.waiting = [] := by
    unfold Core.queued at hqueued
    unfold Core.waiting
    rw [List.flatMap_append, List.append_eq_nil_iff] at hqueued
    rw [List.flatMap_append, hqueued.2, List.append_nil]
    split
    · rfl
    · exact hqueued.1
  have hbuf : s.core.buffers.flatten = [] := by
    have heq := hheld.nread_eq
    rw [show s.core.nread = s.vcd.nread from rfl, hread] at heq
    exact List.eq_nil_of_length_eq_zero heq.symm
  rw [hwait, hheld.taken_eq, hbuf, List.append_nil, List.append_nil] at hw
  have e1 : s.core.log.written = s.log.written := History.flow_written
  have e2 : s.core.log.handed = s.log.handed := History.flow_handed
  rw [e1, e2, handed_eq hd hs, hway, List.append_nil] at hw
  rw [hw]

theorem flushed_of_emptied (hi : s.Invariant) (hd : s.core.Delivers) (hs : s.log.Smooth)
    (he : s.Emptied) (id : ℕ) : History.Flushed id s.log :=
  (History.flushedAt_le id s.log).trans (flushed_all hi hd hs he)

/-- At the end of the data nothing is pending. -/
theorem Invariant.emptied (hi : s.Invariant) (he : s.rs.ended = true) : s.Emptied := by
  have hf := hi.sound.control.flags
  obtain ⟨hending, hw, hq, hlen⟩ := hf.finished (hf.eof he)
  obtain ⟨-, hfree, -⟩ := hi.sound.control.eof he
  have hlast := hi.sound.held.finishing (.inl he)
  have hbuf := (hi.sound.held.last hlast).2.1
  refine ⟨hlen, ?_, ?_⟩
  · have heq := hi.sound.held.nread_eq
    rw [hbuf] at heq
    exact heq
  · simp [Core.underWay, hfree.workReq]

/-- The chunk of a flush is done: it has driven out everything in front of it. -/
theorem Timely.settled (h : s.Timely) (hi : s.Invariant) (hd : s.core.Delivers)
    (hs : s.log.Smooth) (hk : 0 < s.core.after) {req : WriteReq} (hw : s.ws.writing = some req)
    (hcb : req.callback = some id) : History.Flushed id s.log := by
  have hat := hi.sound.control.waits (k := .afterTransform) hk
  obtain ⟨-, -, -, hnone, -, -, htr, -⟩ := hat
  have hheld := hi.sound.held
  obtain ⟨hempty, hpos⟩ := h.reqs hs [] req s.ws.bufferedRequest id
    (by simp [Engine.reqs, hw]) hcb
  have hwritten := hheld.written_eq fun hr => hi.not_refused_of_smooth hs (core_refused.mp hr)
  have hbuf := hheld.emptied htr req hw hempty
  have hwait : s.core.waiting = s.ws.bufferedRequest.flatMap WriteReq.chunk := by
    unfold Core.waiting
    rw [htr, if_pos rfl, List.nil_append]
    rfl
  have hway : s.core.underWay = [] := by simp [Core.underWay, hnone]
  rw [hheld.taken_eq, hbuf, List.flatten_nil, List.append_nil, hwait] at hwritten
  have e1 : s.core.log.written = s.log.written := History.flow_written
  have e2 : s.core.log.handed = s.log.handed := History.flow_handed
  rw [e1, e2, handed_eq hd hs, hway, List.append_nil] at hwritten
  rw [hwritten, List.length_append] at hpos
  exact Nat.le_of_add_le_add_right hpos

/-- After trouble nothing is claimed any more. -/
theorem Timely.rough (h : s.Timely) (hlog : s.log <:+ s'.log) (hs : ¬ s.log.Smooth) :
    s'.Timely := by
  obtain ⟨new, hnew⟩ := hlog
  have hns : ∀ older new' : History, older = new' ++ s.log → ¬ older.Smooth := by
    rintro older new' rfl hx
    exact hs (hx.of_append _)
  refine ⟨fun hx => absurd hx (hns _ new hnew.symm), fun hx => absurd hx (hns _ new hnew.symm), ?_⟩
  intro newer id older heq hx
  rw [← hnew] at heq
  rcases History.split_append heq with ⟨mid, hh⟩ | ⟨-, mid, hh⟩
  · exact h.called mid id older hh hx
  · exact absurd hx (hns older mid hh)

/-! ## Steps -/

theorem steady_pop {f : Frame} {fs : List Frame} (hst : s.stack = f :: fs) :
    Steady s { s with stack := fs } := by
  refine ⟨⟨[], rfl, by simp⟩, fun id hd => .inl ?_, List.suffix_rfl⟩
  refine hd.imp_right fun ⟨g, hg, hgd⟩ => ⟨g, ?_, hgd⟩
  rw [hst]
  exact List.mem_cons_of_mem _ hg

theorem steady_popTick {tk : Tick} {ts : List Tick} (htk : s.ticks = tk :: ts) :
    Steady s { s with ticks := ts } := by
  refine ⟨⟨[], rfl, by simp⟩, fun id hd => .inl ?_, List.suffix_rfl⟩
  refine hd.imp_left fun hm => ?_
  rw [htk]
  exact List.mem_cons_of_mem _ hm

/-- A callback waiting on the stack or in the tick queue is called. -/
theorem steady_transformCb (k : TransformCb) (sync : Bool)
    (hset : k = .afterTransform → s.log.Smooth → ∀ req id, s.ws.writing = some req →
      req.callback = some id → History.Flushed id s.log) :
    Steady s (s.transformCb k none sync) := by
  cases k with
  | done =>
    exact .of_push [.pushNull, .transformCb .done true] [.user] [] rfl rfl (List.append_nil _).symm
      rfl (by simp [Event.isSteady]) (by simp [Frame.due]) (by simp)
  | afterTransform =>
    simp only [transformCb, onwrite]
    split
    · exact .of_push [.transformCb .afterTransform true] [] [] rfl rfl (by simp [note]) rfl
        (by simp [Event.isSteady]) (by simp) (by simp)
    · next req hw =>
      have hnew : ∀ (u : Engine σ) (fs : List Frame), u.log = .transformCb .afterTransform true ::
          s.log → u.stack = fs ++ s.stack → u.ticks = s.ticks →
          u.reqs = s.ws.bufferedRequest → (∀ f ∈ fs, ∀ id, f.due id → req.callback = some id) →
          Steady s u := by
        intro u fs h1 h2 h3 h4 h5
        refine ⟨⟨[.transformCb .afterTransform true], h1, by simp [Event.isSteady]⟩,
          fun id hd => ?_, ?_⟩
        · unfold Due at hd
          rw [h2, h3] at hd
          rcases hd with hd | ⟨f, hf, hfd⟩
          · exact .inl (.inl hd)
          · rcases List.mem_append.mp hf with hf | hf
            · refine .inr fun hx => ?_
              rw [h1] at hx ⊢
              have hs := History.Smooth.of_append [.transformCb .afterTransform true] hx
              exact History.Flushed.append
                (hset rfl hs req id hw (h5 f hf id hfd)) [.transformCb .afterTransform true] (by simp)
            · exact .inl (.inr ⟨f, hf, hfd⟩)
        · have hold : s.ws.writing = some req := hw
          rw [h4, Engine.reqs, hold]
          exact List.suffix_cons _ _
      split
      · exact hnew _ [.clearBuffer, .afterWrite _ _] rfl rfl rfl rfl (by simp [Frame.due])
      · exact hnew _ [.afterWrite _ _] rfl rfl rfl rfl (by simp [Frame.due])

theorem Timely.flush (h : s.Timely) (callback : Option ℕ)
    (hq : s.ws.writing = none → s.ws.bufferedRequest = [])
    (hok : s.ws.ended = true → s.log.Smooth → ∀ id, callback = some id →
      History.Flushed id s.log) : (s.flush callback).Timely := by
  unfold Engine.flush
  split
  · next hended =>
    cases callback with
    | none => exact h
    | some i =>
      refine h.steady ⟨⟨[], rfl, by simp⟩, fun id hd => ?_, List.suffix_rfl⟩
      rcases hd with hd | hd
      · rcases List.mem_append.mp hd with hd | hd
        · exact .inl (.inl hd)
        · obtain rfl : id = i := by simpa using hd
          exact .inr fun hx => hok hended hx id rfl
      · exact .inl (.inr hd)
  · split
    · cases callback <;> exact h.steady (.of_eq rfl rfl rfl rfl)
    · next he =>
      split
      · exact h.steady (.of_eq rfl rfl rfl rfl)
      · have hforce : ({ s with vcd.forceFlush := true } : Engine σ).Timely :=
          h.steady (.of_eq rfl rfl rfl rfl)
        unfold Engine.write
        rw [if_neg (by exact he)]
        exact hforce.writeOrBuffer (fun _ => rfl) hq

/-- Taking a frame that is due from the stack and calling its callback. -/
theorem Timely.callDue (h : s.Timely) (callback : Option ℕ)
    (hpre : s.log.delivered <+: s.log.written) (hdue : ∀ id, callback = some id → s.Due id)
    (hst : Steady s t) (hlog : t.log = s.log) : (t.callUser callback true).Timely := by
  cases callback with
  | none => exact (h.steady hst).steady (steady_callUser none true fun _ => rfl)
  | some id =>
    have hnote := h.note_called (hdue id rfl) hpre
    refine hnote.steady ⟨⟨[], ?_, by simp⟩, fun i hi => ?_, hst.reqs⟩
    · show Event.flushCb id true :: t.log = _
      rw [hlog]
      rfl
    · have hi' : t.Due i := by
        refine hi.imp_right fun ⟨f, hf, hfd⟩ => ⟨f, ?_, hfd⟩
        rcases List.mem_cons.mp hf with rfl | hf
        · exact hfd.elim
        · exact hf
      refine (hst.due i hi').imp_right fun hf hx => ?_
      have hlog' : (t.callUser (some id) true).log = [.flushCb id true] ++ t.log := rfl
      rw [hlog'] at hx ⊢
      exact (hf (hx.of_append _)).append _ (by simp)

/-- A flush with a callback is looked at. -/
def Act.looks (s : Engine σ) : Act → Bool
  | .flush hasCallback => hasCallback
  | .run => s.calling.isNone && match s.stack with
    | .drain (some _ :: _) :: _ => true
    | _ => false
  | _ => false

/-- A flush with a callback that is looked at when the stream has ended finds nothing pending,
if the user has not closed the stream and no native error was reported. -/
def Act.flushesInTime (s : Engine σ) (a : Act) : Prop :=
  a.looks s = true → s.ws.ended = true → s.log.Smooth → s.Emptied

instance (s : Engine σ) (a : Act) : Decidable (a.flushesInTime s) :=
  inferInstanceAs (Decidable (_ → _ → _ → _))

theorem Timely.runFrame (h : s.Timely) (hi : s.Invariant) (hd : s.core.Delivers)
    (hs : s.log.Smooth) (hcl : s.Clearing) {f : Frame} {fs : List Frame}
    (hst : s.stack = f :: fs) (hcall : s.calling = none) (hok : Act.run.flushesInTime s) :
    (({ s with stack := fs } : Engine σ).runFrame f).Timely := by
  have hpop : Steady s { s with stack := fs } := steady_pop hst
  have hframe : ∀ u : Engine σ, u.log = s.log → u.ticks = s.ticks → u.reqs = s.reqs →
      (∃ gs, u.stack = gs ++ fs ∧ ∀ g ∈ gs, ∀ id, g.due id → f.due id) → Steady s u := by
    rintro u h1 h2 h3 ⟨gs, h4, h5⟩
    refine ⟨⟨[], h1, by simp⟩, fun id hdue => .inl ?_, h3 ▸ List.suffix_rfl⟩
    unfold Due at hdue ⊢
    rw [h2, h4] at hdue
    refine hdue.imp_right fun ⟨g, hg, hgd⟩ => ?_
    rcases List.mem_append.mp hg with hg | hg
    · exact ⟨f, by rw [hst]; exact List.mem_cons_self, h5 g hg id hgd⟩
    · exact ⟨g, by rw [hst]; exact List.mem_cons_of_mem _ hg, hgd⟩
  cases f with
  | user => exact h.steady hpop
  | ended => exact h.steady (hframe _ rfl rfl rfl ⟨[], rfl, by simp⟩)
  | afterShim | sendError => exact h.steady (hframe _ rfl rfl rfl ⟨[], rfl, by simp⟩)
  | emitError e => exact (h.steady hpop).steady (steady_emit rfl)
  | cb k =>
    refine (h.steady hpop).steady (steady_transformCb k false ?_)
    rintro rfl hx req id hw hcb
    have hk : 0 < s.core.after := by
      have hpos : 0 < s.stack.count (.cb .afterTransform) := by
        rw [hst]
        exact List.count_pos_iff.mpr List.mem_cons_self
      exact Nat.lt_of_lt_of_le hpos (Nat.le_add_left _ _)
    exact h.settled hi hd hs hk hw hcb
  | clearBuffer =>
    simp only [Engine.runFrame]
    split
    · next req rest hw hq =>
      have hw' : s.ws.writing = none := hw
      have hq' : s.ws.bufferedRequest = req :: rest := hq
      refine h.steady (hframe _ rfl rfl ?_ ⟨[.clearBuffer], rfl, by simp [Frame.due]⟩)
      simp [Engine.reqs, doWrite, hw', hq']
    · exact h.steady (hframe _ rfl rfl rfl ⟨[], rfl, by simp⟩)
  | afterWrite finished callback =>
    simp only [Engine.runFrame]
    split
    · exact h.steady (hframe _ rfl rfl rfl
        ⟨[.user, .drain _, .writeCb callback], rfl, by simp [Frame.due]⟩)
    · exact h.steady (hframe _ rfl rfl rfl ⟨[.writeCb callback], rfl, by simp [Frame.due]⟩)
  | drain listeners =>
    cases listeners with
    | nil => exact h.steady hpop
    | cons callback rest =>
      have hpush : ({ s with stack := .user :: .drain rest :: fs } : Engine σ).Timely :=
        h.steady (hframe _ rfl rfl rfl ⟨[.user, .drain rest], rfl, by simp [Frame.due]⟩)
      refine hpush.flush callback ?_ fun hend hx id hcb => ?_
      · exact hcl.idle (hcl.pop hst (by simp)).1
      · have hlook : Act.run.looks s = true := by simp [Act.looks, hcall, hst, hcb]
        exact flushed_of_emptied hi hd hs (hok hlook hend hs) id
  | writeCb callback =>
    have hmem : .writeCb callback ∈ s.stack := by rw [hst]; exact List.mem_cons_self
    exact h.callDue _ (delivered_isPrefix hi hd hs) (fun id hid => .inr ⟨_, hmem, hid⟩)
      (hframe _ rfl rfl rfl ⟨[.finishMaybe], rfl, by simp [Frame.due]⟩) rfl
  | finishMaybe =>
    simp only [Engine.runFrame]
    split
    · exact h.steady (hframe _ rfl rfl rfl ⟨[.user], rfl, by simp [Frame.due]⟩)
    · exact h.steady hpop
  | endListeners ids =>
    cases ids with
    | nil => exact h.steady hpop
    | cons id ids =>
      refine h.callDue (some id) (delivered_isPrefix hi hd hs) (fun i hi => ?_)
        (hframe _ rfl rfl rfl ⟨[.endListeners ids], rfl, ?_⟩) rfl
      · obtain rfl : id = i := by simpa using hi
        exact .inr ⟨_, by rw [hst]; exact List.mem_cons_self, List.mem_cons_self⟩
      · simp only [List.mem_singleton, forall_eq]
        exact fun i hi => List.mem_cons_of_mem _ hi

theorem holds_of_due {f : Frame} (hf : f.due id) : f.holds id ≠ 0 := by
  cases f with
  | writeCb callback | afterWrite _ callback =>
    obtain rfl : callback = some id := hf
    simp [Frame.holds, charge]
  | endListeners ids => exact (List.count_pos_iff.mpr hf).ne'
  | _ => cases hf

/-- A number that was not given out is nowhere. -/
theorem fresh_of_held (hh : s.held s.nextFlush = 1) :
    ¬ s.Due s.nextFlush ∧ ∀ req ∈ s.reqs, req.callback ≠ some s.nextFlush := by
  have hun : unpassed s.nextFlush s.nextFlush = 1 := if_pos le_rfl
  have hzero : (s.ws.writing.toList.map (WriteReq.holds s.nextFlush)).sum = 0 ∧
      (s.ws.bufferedRequest.map (WriteReq.holds s.nextFlush)).sum = 0 ∧
      (s.stack.map (Frame.holds s.nextFlush)).sum = 0 ∧
      (s.ticks.map (Tick.holds s.nextFlush)).sum = 0 := by
    unfold held at hh
    omega
  obtain ⟨h1, h2, h3, h4⟩ := hzero
  rw [List.sum_eq_zero_iff_forall_eq_nat] at h1 h2 h3 h4
  refine ⟨?_, fun req hreq hcb => ?_⟩
  · rintro (hm | ⟨f, hf, hfd⟩)
    · have := h4 _ (List.mem_map_of_mem hm)
      simp [Tick.holds, charge] at this
    · exact holds_of_due hfd (h3 _ (List.mem_map_of_mem hf))
  · have hz : WriteReq.holds s.nextFlush req = 0 := by
      rcases List.mem_append.mp hreq with hm | hm
      · exact h1 _ (List.mem_map_of_mem hm)
      · exact h2 _ (List.mem_map_of_mem hm)
    simp [WriteReq.holds, charge, hcb] at hz

theorem Timely.userCall (h : s.Timely) (hi : s.Invariant) (hd : s.core.Delivers)
    (hs : s.log.Smooth) (hq : s.ws.writing = none → s.ws.bufferedRequest = [])
    (hh : s.held s.nextFlush = 1) (hok : a.flushesInTime s) : (s.userCall a).Timely := by
  cases a with
  | write chunk =>
    simp only [Engine.userCall, Engine.write]
    split
    · exact h.steady ((steady_nextTick (by simp)).after (steady_emit rfl))
    · exact h.writeOrBuffer (fun hne => absurd rfl hne) hq
  | flush hasCallback =>
    cases hasCallback with
    | false => exact h.flush none hq fun _ _ id hid => by cases hid
    | true =>
      obtain ⟨hdue, hreqs⟩ := fresh_of_held hh
      have hnote := h.note_flush hdue hreqs
      have hnext : (({ s with nextFlush := s.nextFlush + 1 } : Engine σ).note
          (.flush s.nextFlush)).Timely := hnote.steady (.of_eq rfl rfl rfl rfl)
      refine hnext.flush _ hq fun hend _ id hid => ?_
      obtain rfl : s.nextFlush = id := Option.some.inj hid
      -- nothing is pending, so the bytes accepted so far are the bytes delivered
      have hall := flushed_all hi hd hs (hok rfl hend hs)
      unfold History.Flushed
      show History.flushedAt s.nextFlush (.flush s.nextFlush :: s.log) ≤ _
      rw [History.flushedAt, if_pos rfl]
      exact hall
  | endWritable => exact h.steady steady_endWritable
  | close hasCallback =>
    cases hasCallback
    · exact h.steady (steady_close none)
    · exact h.steady ((steady_close (some s.nextClose)).after (.of_eq rfl rfl rfl rfl))
  | demand | read => exact h.steady (.of_eq rfl rfl rfl rfl)
  | _ => exact h

theorem Timely.tick (h : s.Timely) (hi : s.Invariant) (hd : s.core.Delivers)
    (hs : s.log.Smooth) {tk : Tick} {ts : List Tick} (htk : s.ticks = tk :: ts) :
    (({ s with ticks := ts } : Engine σ).runTick tk).Timely := by
  have hpop : Steady s { s with ticks := ts } := steady_popTick htk
  cases tk with
  | transformCb k =>
    refine (h.steady hpop).steady (steady_transformCb k false ?_)
    rintro rfl hx req id hw hcb
    have hk : 0 < s.core.after := by
      have hpos : 0 < s.ticks.count (.transformCb .afterTransform) := by
        rw [htk]
        exact List.count_pos_iff.mpr List.mem_cons_self
      exact Nat.lt_of_lt_of_le hpos (Nat.le_add_right _ _)
    exact h.settled hi hd hs hk hw hcb
  | flushCb i =>
    have hmem : .flushCb i ∈ s.ticks := by rw [htk]; exact List.mem_cons_self
    refine h.callDue (some i) (delivered_isPrefix hi hd hs) (fun id hid => ?_) hpop rfl
    obtain rfl : i = id := Option.some.inj hid
    exact .inl hmem
  | writeError callback => exact (h.steady hpop).steady (steady_callUser callback false (by simp))
  | closeCb i => exact (h.steady hpop).steady (steady_emit rfl)
  | emitClose => exact (h.steady hpop).steady (steady_emit rfl)

/-- 'end' is emitted: nothing is pending, so the callbacks parked on it may be called. -/
theorem Timely.emitEnd (h : s.Timely) (hi : s.Invariant) (hd : s.core.Delivers)
    (hs : s.log.Smooth) (he : s.rs.ended = true) : s.emitEnd.Timely := by
  refine (h.steady (t := { s with
    rs.endEmitted := true, endListeners := []
    stack := .user :: .endListeners s.endListeners :: s.stack
    log := .endEvent :: s.log }) ?_).steady (steady_close none)
  refine ⟨⟨[.endEvent], rfl, by simp [Event.isSteady]⟩, fun id hdue => ?_, List.suffix_rfl⟩
  refine .inr fun _ => ?_
  exact (flushed_of_emptied hi hd hs (hi.emptied he) id).append [.endEvent] (by simp)

theorem Timely.step (h : s.Timely) (hi : s.Invariant) (hd : s.core.Delivers)
    (hh : s.held s.nextFlush = 1) (hok : a.flushesInTime s) (hst : step K s a = some s') :
    s'.Timely := by
  by_cases hs : s.log.Smooth
  · have hcl : s.Clearing := hi.clearing.resolve_left (hi.not_refused_of_smooth hs)
    obtain ⟨-, hm⟩ := step_moves hst
    cases hm with
    | work =>
      exact h.steady (.of_push [.work _] [] [] rfl rfl (by simp [note]) rfl
        (by simp [Event.isSteady]) (by simp) (by simp))
    | workFail => exact h.steady (.of_eq rfl rfl rfl rfl)
    | afterShim => exact h.steady steady_afterShim
    | tick htk => exact h.tick hi hd hs htk
    | emitEnd _ he => exact h.emitEnd hi hd hs he
    | calling => exact h.steady (steady_runCalling _)
    | frame hc hstk => exact h.runFrame hi hd hs hcl hstk hc hok
    | user _ hu => exact h.userCall hi hd hs (hcl.idle (hcl.of_userPoint hu)) hh hok
  · exact h.rough (step_log hi.shape hst) hs

variable {mode : Mode} {m : Number} {h : ℤ} {x : σ}

theorem timely_of_reaches
    (hr : Reaches (step K) (fun s a => a.flushesInTime s) (init mode m h x) s) : s.Timely := by
  induction hr with
  | refl =>
    refine ⟨fun _ id hd => ?_, fun _ l req r id heq => ?_, fun newer id older heq => ?_⟩
    · simp [Due, init] at hd
    · simp [Engine.reqs, init] at heq
    · simp [init] at heq
  | tail hr hok hs ih =>
    exact ih.step (.reaches hr) (delivers_of_reaches hr) (held_of_reaches hr _) hok hs

/-- In a run in which flushes are looked at in time, a flush callback that is called without an
error, before any native error or close by the user, tells that the bytes accepted before its
`flush` call were processed, and that the output of the calls that took them was pushed. -/
theorem flush_means_flushed
    (hr : Reaches (step K) (fun s a => a.flushesInTime s) (init mode m h x) s)
    {newer between older : History}
    (hlog : s.log = newer ++ .flushCb id true :: (between ++ .flush id :: older))
    (hclosed : History.ClosedAtEnd (between ++ .flush id :: older))
    (hno : History.nativeErrors (between ++ .flush id :: older) = []) :
    ∃ cs rest, History.calls (between ++ .flush id :: older) = cs ++ rest ∧
      older.written <+: cs.flatMap Call.data ∧
      cs.flatMap Call.out <+: History.pushed (between ++ .flush id :: older) := by
  obtain ⟨hf, hpre⟩ := (timely_of_reaches hr).called newer id _ hlog ⟨hclosed, hno⟩
  have hpush : History.PushesAll (between ++ .flush id :: older) := by
    have hall : History.PushesAll s.log := (delivers_of_reaches hr).pushes.of_flow
    rw [hlog] at hall
    exact History.PushesAll.of_append (newer ++ [.flushCb id true]) (by simpa using hall)
  obtain ⟨cs, rest, hcalls, hdata, hout⟩ := hpush.calls
  refine ⟨cs, rest, hcalls, ?_, hout⟩
  rw [hdata]
  have hle := (History.le_flushedAt id between older).trans hf
  have hold : older.written <+: History.written (between ++ .flush id :: older) := by
    have happ := History.written_isPrefix (between ++ [.flush id]) older
    rwa [List.append_assoc, List.singleton_append] at happ
  exact List.prefix_of_prefix_length_le hold hpre hle

/-- A flush drives a byte out of an encoder that gathers. -/
theorem flush_means_flushed_copy : ∃ s, Reaches (step copyCoder) (fun s a => a.flushesInTime s)
    (init .encode (.ofInt 4096) 16384 ()) s ∧ s.log.head? = some (.flushCb 0 true) ∧
      ∃ cs rest, s.log.calls = cs ++ rest ∧ [1] <+: cs.flatMap Call.data ∧
        cs.flatMap Call.out <+: s.log.pushed := by
  have hrun : ∃ s, Reaches (step copyCoder) (fun s a => a.flushesInTime s)
      (init .encode (.ofInt 4096) 16384 ()) s ∧ s.log = [] ++ .flushCb 0 true ::
        ([.transformCb .afterTransform true, .push [1], .work [.start .ok [], .process [1] .ok [1]],
          .nativeWrite false [1], .take [], .transformCb .afterTransform true, .accept []] ++
          .flush 0 :: [.take [1], .accept [1]]) :=
    Transition.exists_reaches ([.write [1], .run, .flush true, .tick] ++ .replicate 7 .run ++
      [.work, .afterShim] ++ .replicate 4 .run) (by decide +kernel)
  obtain ⟨s, hr, hlog⟩ := hrun
  obtain ⟨cs, rest, h1, h2, h3⟩ := flush_means_flushed hr hlog (by decide) (by decide)
  refine ⟨s, hr, by rw [hlog]; rfl, cs, rest, ?_, h2, ?_⟩ <;> rw [hlog]
  · exact h1
  · exact h3

/-- A flush of a decoder that was ended is called back while the only byte written to it is
with the worker. -/
theorem flush_of_ended_early : ∃ s, Reaches (step copyCoder) anyStep
    (init .decode (.ofInt 4096) 16384 ()) s ∧ ∃ older, s.log = .flushCb 0 true :: .flush 0 :: older ∧
      s.log.ClosedAtEnd ∧ (∀ e ∈ s.log, e.isError = false) ∧ History.written older = [1] ∧
      ¬ ∃ cs rest, s.log.calls = cs ++ rest ∧ History.written older <+: cs.flatMap Call.data := by
  have hrun : ∃ s, Reaches (step copyCoder) anyStep (init .decode (.ofInt 4096) 16384 ()) s ∧
      s.log = [.flushCb 0 true, .flush 0, .nativeWrite false [1], .take [1], .accept [1]] :=
    Transition.exists_reaches [.write [1], .run, .endWritable, .run, .run, .flush true, .tick]
      (by decide +kernel)
  obtain ⟨s, hr, hlog⟩ := hrun
  refine ⟨s, hr, [.nativeWrite false [1], .take [1], .accept [1]], hlog, ?_, ?_, rfl, ?_⟩
  · rw [hlog]; decide
  · rw [hlog]; decide
  · rintro ⟨cs, rest, hcalls, hpre⟩
    rw [hlog] at hcalls
    obtain ⟨rfl, -⟩ := List.append_eq_nil_iff.mp hcalls.symm
    exact absurd hpre (by decide)

end Engine

end NodeVcdiff
