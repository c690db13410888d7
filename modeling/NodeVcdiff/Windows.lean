import NodeVcdiff.Failures

/-!
# Windows

An encoder gathers what is written into buffers of at least `minEncodeWindowSize` bytes. A
shorter one has to end where a flush was asked for, or at the end of the input.
-/

namespace NodeVcdiff

open Script (Number)

/-- An event that neither accepts nor hands over bytes. -/
def Event.isStill : Event → Bool
  | .accept _ | .nativeWrite _ _ => false
  | _ => true

namespace History

variable {h new : History} {m : Number} {ending ending' : Bool}

/-- The positions in the written bytes at which an empty chunk was queued. -/
def flushPoints : History → List ℕ
  | [] => []
  | .accept c :: h =>
    if c.isEmpty then (written h).length :: flushPoints h else flushPoints h
  | _ :: h => flushPoints h

/-- Every non-empty buffer below `m` bytes that was handed over ends at a flush point, or at
the end of the input. -/
def Windowed (m : Number) (ending : Bool) (h : History) : Prop :=
  ∀ newer l b older, h = newer ++ .nativeWrite l b :: older → b ≠ [] →
    (Number.ofInt b.length).lt m = true →
      (handed older ++ b).length ∈ flushPoints h ∨
        (ending = true ∧ (handed older ++ b).length = (written h).length)

theorem still_eq (hn : ∀ e ∈ new, e.isStill = true) :
    flushPoints (new ++ h) = flushPoints h ∧ written (new ++ h) = written h ∧
      handed (new ++ h) = handed h := by
  induction new with
  | nil => exact ⟨rfl, rfl, rfl⟩
  | cons e new ih =>
    have hrest := ih fun e' he' => hn e' (List.mem_cons_of_mem _ he')
    have he := hn e List.mem_cons_self
    cases e with
    | accept | nativeWrite => cases he
    | _ => exact hrest

theorem Windowed.still (hw : Windowed m ending h) (hn : ∀ e ∈ new, e.isStill = true)
    (he : ending = true → ending' = true) : Windowed m ending' (new ++ h) := by
  intro newer l b older heq hb hlt
  obtain ⟨h1, h2, -⟩ := still_eq (h := h) hn
  rw [h1, h2]
  rcases split_append heq with ⟨mid, hh⟩ | ⟨hm, -⟩
  · exact (hw mid l b older hh hb hlt).imp_right (And.imp_left he)
  · cases hn _ hm

theorem Windowed.accept (hw : Windowed m false h) (c : Buffer) :
    Windowed m false (.accept c :: h) := by
  intro newer l b older heq hb hlt
  rcases newer with _ | ⟨e, newer⟩
  · cases (List.cons.inj heq).1
  · obtain ⟨-, hh⟩ := List.cons.inj heq
    left
    have hp := (hw newer l b older hh hb hlt).resolve_right (by simp)
    rw [flushPoints]
    split
    · exact List.mem_cons_of_mem _ hp
    · exact hp

/-- A buffer is handed over. -/
theorem Windowed.nativeWrite (hw : Windowed m ending h) (l : Bool) (b : Buffer)
    (hb : b ≠ [] → (Number.ofInt b.length).lt m = true →
      (handed h ++ b).length ∈ flushPoints h ∨
        (ending = true ∧ (handed h ++ b).length = (written h).length)) :
    Windowed m ending (.nativeWrite l b :: h) := by
  intro newer l' b' older heq hne hlt
  rcases newer with _ | ⟨e, newer⟩
  · obtain ⟨he, rfl⟩ := List.cons.inj heq
    obtain ⟨rfl, rfl⟩ : l = l' ∧ b = b' := by simpa using he
    exact hb hne hlt
  · exact hw newer l' b' older (List.cons.inj heq).2 hne hlt

theorem flow_flushPoints : flushPoints (h.filter Event.isFlow) = flushPoints h :=
  flow_eq (fun h => (flushPoints h, written h))
    (fun e _ _ heq => by
      obtain ⟨h1, h2⟩ := Prod.mk.inj heq
      cases e <;> simp [flushPoints, written, h1, h2])
    (fun e _ he => by cases e <;> first | rfl | cases he) |> congrArg Prod.fst

theorem flow_windowed : Windowed m ending (h.filter Event.isFlow) ↔ Windowed m ending h := by
  refine ⟨fun hw newer l b older heq hb hlt => ?_, fun hw newer l b older heq hb hlt => ?_⟩
  · have hsplit : h.filter Event.isFlow = newer.filter Event.isFlow ++
        .nativeWrite l b :: older.filter Event.isFlow := by
      rw [heq, List.filter_append]
      rfl
    have hpos := hw _ l b _ hsplit hb hlt
    rwa [flow_flushPoints, flow_written, flow_handed] at hpos
  · obtain ⟨newer', rest, rfl, -, hrest⟩ := List.filter_eq_append_iff.mp heq
    obtain ⟨between, older', rfl, -, -, rfl⟩ := List.filter_eq_cons_iff.mp hrest
    rw [flow_flushPoints, flow_written, flow_handed]
    exact hw (newer' ++ between) l b older' (by simp) hb hlt

end History

namespace Core

variable {σ : Type*} {K : Coder σ} {c c' : Core σ}

/-- The chunks accepted and not yet taken by `_transform`, in order. -/
def waitingChunks (c : Core σ) : List Buffer :=
  ((if c.transforming then [] else c.writing.toList) ++ c.queue).map WriteReq.chunk

theorem flatten_waitingChunks (c : Core σ) : c.waitingChunks.flatten = c.waiting := by
  rw [waiting, waitingChunks, List.flatMap_def]

/-- Flush points are known as long as their chunks wait, and buffers end where they may. -/
structure Gathered (c : Core σ) : Prop where
  points : ¬ c.log.Refused → ∀ l r, c.waitingChunks = l ++ [] :: r →
    c.log.written.length - r.flatten.length ∈ c.log.flushPoints
  windowed : c.log.Windowed c.window c.ending

/-- What is known about flush points stays known when no chunk and no point is added. -/
theorem Gathered.points_of_suffix (h : c.Gathered) {log : History}
    (h1 : log.flushPoints = c.log.flushPoints) (h2 : log.written = c.log.written)
    (h3 : c.log.Refused → log.Refused) {chunks : List Buffer}
    (hq : ¬ log.Refused → chunks <:+ c.waitingChunks) :
    ¬ log.Refused → ∀ l r, chunks = l ++ [] :: r →
      log.written.length - r.flatten.length ∈ log.flushPoints := by
  intro hr l r heq
  obtain ⟨pre, hpre⟩ := hq hr
  rw [h1, h2]
  refine h.points (fun hn => hr (h3 hn)) (pre ++ l) r ?_
  rw [← hpre, heq, List.append_assoc]

/-- A step that accepts and hands over nothing, and may take chunks off the front. -/
theorem Gathered.congr (h : c.Gathered)
    (hq : ¬ c'.log.Refused → c'.waitingChunks <:+ c.waitingChunks)
    (new : History) (hlog : c'.log = new ++ c.log) (hn : ∀ e ∈ new, e.isStill = true)
    (hw : c'.window = c.window) (he : c.ending = true → c'.ending = true) : c'.Gathered := by
  obtain ⟨h1, h2, -⟩ := History.still_eq (h := c.log) hn
  refine ⟨h.points_of_suffix (hlog ▸ h1) (hlog ▸ h2) ?_ hq, ?_⟩
  · rw [hlog]
    exact fun ⟨k, hk⟩ => ⟨k, List.mem_append_right _ hk⟩
  · rw [hlog, hw]
    exact h.windowed.still hn he

theorem waitingChunks_accept (ht : c.transforming = true → c.writing.isSome)
    (hq : c.writing = none → c.queue = []) (req : WriteReq) (wants : Bool) :
    (c.accept req wants).waitingChunks = c.waitingChunks ++ [req.chunk] := by
  unfold Core.accept
  cases hw : c.writing with
  | some r => cases htr : c.transforming <;> simp [waitingChunks, hw, htr]
  | none =>
    have htr : c.transforming = false := by
      by_contra hne
      simpa [hw] using ht (by simpa using hne)
    simp [waitingChunks, start, hw, hq hw, htr]

theorem Gathered.accept (h : c.Gathered) (he : c.ending = false)
    (ht : c.transforming = true → c.writing.isSome)
    (hq : ¬ c.log.Refused → c.writing = none → c.queue = []) (req : WriteReq) (wants : Bool) :
    (c.accept req wants).Gathered := by
  have hfields : (c.accept req wants).log = .accept req.chunk :: c.log ∧
      (c.accept req wants).window = c.window ∧ (c.accept req wants).ending = c.ending := by
    unfold Core.accept
    dsimp only
    split <;> exact ⟨rfl, rfl, rfl⟩
  obtain ⟨f1, f2, f3⟩ := hfields
  refine ⟨?_, ?_⟩
  · rw [f1]
    intro hr l r heq
    have hr' : ¬ c.log.Refused := fun hn => hr (by simp [hn])
    rw [waitingChunks_accept ht (hq hr')] at heq
    -- the new chunk is the last one: either it is the empty chunk, or that was there before
    rcases List.eq_nil_or_concat' r with rfl | ⟨r, x, rfl⟩
    · obtain ⟨-, hx⟩ := List.append_inj' heq rfl
      obtain ⟨hx, -⟩ := List.cons.inj hx
      simp [History.flushPoints, History.written, hx]
    · have hsplit : c.waitingChunks ++ [req.chunk] = (l ++ [] :: r) ++ [x] := by
        rw [heq, List.append_assoc, List.cons_append]
      obtain ⟨hold, hx⟩ := List.append_inj' hsplit rfl
      obtain ⟨rfl, -⟩ := List.cons.inj hx
      have hp := h.points hr' l r hold
      have hlen : (History.written (.accept req.chunk :: c.log)).length -
          (r ++ [req.chunk]).flatten.length = c.log.written.length - r.flatten.length := by
        simp only [History.written, List.length_append, List.flatten_append, List.flatten_singleton]
        omega
      rw [hlen, History.flushPoints]
      split
      · exact List.mem_cons_of_mem _ hp
      · exact hp
  · rw [f1, f2, f3, he]
    have hw := h.windowed
    rw [he] at hw
    exact hw.accept req.chunk

theorem waitingChunks_begin (call : Calling) (ht : c.transforming = false) :
    (c.begin call).waitingChunks <:+ c.waitingChunks := by
  cases call with
  | transform sync =>
    rw [waitingChunks, waitingChunks, ht]
    simp only [begin, if_true, Bool.false_eq_true, if_false, List.nil_append, List.map_append]
    exact List.suffix_append _ _
  | flush => exact List.suffix_rfl

/-- A chunk with `queue` behind it ends before an empty chunk, or with the input. -/
def EndsInPlace (queue : List WriteReq) (ending : Bool) : Prop :=
  match queue with
  | [] => ending = true
  | next :: _ => next.chunk = []

instance (queue : List WriteReq) (ending : Bool) : Decidable (EndsInPlace queue ending) := by
  unfold EndsInPlace
  split <;> infer_instance

/-- A chunk that `forceFlush` drives out fills the window, or may end a buffer. -/
def ForcedInPlace (c : Core σ) (call : Calling) (forceFlush : Bool) : Prop :=
  c.closed = false → forceFlush = true → call ≠ .flush → c.chunkOf call ≠ [] →
    c.window.le (.ofInt (c.nread + (c.chunkOf call).length : ℕ)) = true ∨
      EndsInPlace c.queue c.ending

/-- A buffer of an encoder that is handed over is full, or ends where the condition allows. -/
theorem Gathered.submitted (h : c.Gathered) (hs : c.Sound) (hm : c.mode = .encode)
    {call : Calling} (hat : c.At (.called call)) (hcl : c.closed = false) {forceFlush : Bool}
    (hok : c.ForcedInPlace call forceFlush)
    (hfull : ((c.begin call).take (c.chunkOf call)).full
      (forceFlush || decide ((c.chunkOf call).length = 0)) = true)
    (hlt : (Number.ofInt (c.buffers.flatten ++ c.chunkOf call).length).lt c.window = true) :
    (c.log.taken ++ c.chunkOf call).length ∈ c.log.flushPoints ∨
      (c.ending = true ∧ (c.log.taken ++ c.chunkOf call).length = c.log.written.length) := by
  have href : ¬ c.log.Refused := fun hr => by
    simp [(hs.control.noted.refused hr).1] at hcl
  obtain ⟨-, -, htr, -, -, hcall⟩ := hat
  have hwait : c.log.written = c.log.taken ++ c.chunkOf call ++ (c.begin call).waiting := by
    rw [hs.held.written_eq href, waiting_begin call htr, List.append_assoc]
  have hpoint : ∀ l r, c.waitingChunks = l ++ [] :: r → r.flatten = (c.begin call).waiting →
      (c.log.taken ++ c.chunkOf call).length ∈ c.log.flushPoints := by
    intro l r heq hr
    have hp := h.points href l r heq
    have hlen : c.log.written.length - (c.begin call).waiting.length =
        (c.log.taken ++ c.chunkOf call).length := by
      rw [hwait, List.length_append, Nat.add_sub_cancel]
    rwa [hr, hlen] at hp
  have hbegin : ((c.begin call).take (c.chunkOf call)).window = c.window ∧
      ((c.begin call).take (c.chunkOf call)).nread = c.nread + (c.chunkOf call).length ∧
      ((c.begin call).take (c.chunkOf call)).mode = c.mode := by
    cases call <;> exact ⟨rfl, rfl, rfl⟩
  obtain ⟨b1, b2, b3⟩ := hbegin
  have hwin : c.window.le (.ofInt (c.nread + (c.chunkOf call).length : ℕ)) = false := by
    rw [hs.held.nread_eq, ← List.length_append]
    exact Number.not_le_of_lt hlt
  rw [full, b1, b2, b3, hm, hwin] at hfull
  simp only [Bool.false_or, Bool.or_eq_true, decide_eq_true_eq, reduceCtorEq, or_false,
    List.length_eq_zero_iff] at hfull
  cases call with
  | flush =>
    -- `_flush` runs at the end of the input
    obtain ⟨hend, hwr, hq, -⟩ := hs.control.flags.finished hcall.1
    right
    refine ⟨hend, ?_⟩
    rw [hwait]
    simp [waiting, begin, hwr, hq]
  | transform sync =>
    obtain ⟨req, hreq⟩ := Option.isSome_iff_exists.mp hcall
    have hchunk : c.chunkOf (.transform sync) = req.chunk := by simp [chunkOf, hreq]
    have hchunks : c.waitingChunks = req.chunk :: c.queue.map WriteReq.chunk := by
      simp [waitingChunks, hreq, htr]
    have hbehind : (c.begin (.transform sync)).waiting =
        (c.queue.map WriteReq.chunk).flatten := by
      simp [waiting, begin, List.flatMap_def]
    by_cases hempty : req.chunk = []
    · left
      exact hpoint [] _ (by rw [hchunks, hempty]; rfl) hbehind.symm
    · have hff : forceFlush = true := hfull.resolve_right (by rwa [hchunk])
      have hplace := (hok hcl hff (by simp) (by rwa [hchunk])).resolve_left
        (by rw [hwin]; exact Bool.false_ne_true)
      cases hq : c.queue with
      | nil =>
        rw [hq] at hplace
        right
        refine ⟨hplace, ?_⟩
        rw [hwait, hbehind, hq]
        simp
      | cons next rest =>
        rw [hq] at hplace
        left
        refine hpoint [req.chunk] (rest.map WriteReq.chunk) ?_ ?_
        · rw [hchunks, hq, List.map_cons, hplace]
          rfl
        · rw [hbehind, hq, List.map_cons, hplace]
          rfl

theorem Gathered.call (h : c.Gathered) (hs : c.Sound) (hm : c.mode = .encode) {call : Calling}
    (hc : c.calling = some call) {forceFlush : Bool} (hok : c.ForcedInPlace call forceFlush) :
    (c.runCalling call forceFlush).Gathered := by
  have hat := hs.control.called hc
  have htr : c.transforming = false := hat.2.2.1
  rw [runCalling_eq hat hs.control.flags]
  split
  · -- the stream is closed: the call is refused
    have hd := c.turnedDown call
    refine h.congr (fun hr => absurd ?_ hr) [.transformCb call.callback false] hd.log
      (by simp [Event.isStill]) hd.window (fun he => hd.ending.trans he)
    rw [hd.log]
    exact ⟨_, List.mem_cons_self⟩
  · next hcl =>
    have hcl : c.closed = false := Bool.eq_false_iff.mpr hcl
    have hsuffix := waitingChunks_begin call htr
    unfold Core.running
    dsimp only
    split
    · next hfull =>
      set d := ((c.begin call).take (c.chunkOf call)).submit
        (c.ending && decide (c.length = (c.chunkOf call).length)) call.callback with hd
      have hdata : Engine.concat ((c.begin call).take (c.chunkOf call)).buffers
          ((c.begin call).take (c.chunkOf call)).nread = c.buffers.flatten ++ c.chunkOf call := by
        rw [concat_eq]
        · cases call <;> simp [take, begin]
        · cases call <;> simp [take, begin, hs.held.nread_eq]
      have hfields : d.waitingChunks = (c.begin call).waitingChunks ∧ d.window = c.window ∧
          d.ending = c.ending ∧ d.log = .nativeWrite (c.ending && decide (c.length =
            (c.chunkOf call).length)) (c.buffers.flatten ++ c.chunkOf call) ::
              .take (c.chunkOf call) :: c.log := by
        rw [hd, submit, hdata]
        cases call <;> exact ⟨rfl, rfl, rfl, rfl⟩
      obtain ⟨f1, f2, f3, f4⟩ := hfields
      refine ⟨?_, ?_⟩
      · rw [f1]
        refine h.points_of_suffix ?_ ?_ ?_ fun _ => hsuffix
        · rw [f4]; rfl
        · rw [f4]; rfl
        · rw [f4]; exact fun hr => by simp [hr]
      · rw [f2, f3, f4]
        have hstill : History.Windowed c.window c.ending (.take (c.chunkOf call) :: c.log) :=
          by
          have hstill : ∀ e ∈ [Event.take (c.chunkOf call)], e.isStill = true := by
            simp [Event.isStill]
          exact h.windowed.still hstill id
        refine hstill.nativeWrite _ _ fun _ hlt => ?_
        have hpos := h.submitted hs hm hat hcl hok hfull hlt
        rw [hs.held.taken_eq, List.append_assoc] at hpos
        exact hpos
    · set d := ((c.begin call).take (c.chunkOf call)).park call.callback with hd
      have hfields : d.waitingChunks = (c.begin call).waitingChunks ∧ d.window = c.window ∧
          d.ending = c.ending ∧ d.log = .take (c.chunkOf call) :: c.log := by
        rw [hd]
        cases call <;> exact ⟨rfl, rfl, rfl, rfl⟩
      obtain ⟨f1, f2, f3, f4⟩ := hfields
      exact h.congr (fun _ => f1 ▸ hsuffix) [.take (c.chunkOf call)] f4 (by simp [Event.isStill])
        f2 (fun he => f3.trans he)

theorem waitingChunks_settle {k : TransformCb} (hat : c.At (.parked k)) :
    ((c.unpark k).transformCb k true).waitingChunks = c.waitingChunks := by
  obtain ⟨-, -, -, -, -, -, hb⟩ := hat
  cases k with
  | afterTransform =>
    obtain ⟨req, hreq⟩ := Option.isSome_iff_exists.mp hb.2
    rw [settle_afterTransform hreq]
    simp [waitingChunks, hb.1]
  | done => rw [settle_done]; rfl

theorem Gathered.close (h : c.Gathered) : c.close.Gathered := by
  unfold Core.close
  dsimp only
  split
  · exact h.congr (fun _ => List.suffix_rfl) [.close] rfl (by simp [Event.isStill]) rfl id
  · split
    · exact h.congr (fun _ => List.suffix_rfl) [.nativeClose, .close] rfl
        (by simp [Event.isStill]) rfl id
    · exact h.congr (fun _ => List.suffix_rfl) [.close] rfl (by simp [Event.isStill]) rfl id

theorem Gathered.step (h : c.Gathered) (hs : c.Sound) (hm : c.mode = .encode)
    (hok : ∀ call forceFlush, c' = c.runCalling call forceFlush → c.calling = some call →
      c.ForcedInPlace call forceFlush) (hst : c.Step K c') : c'.Gathered := by
  have same : ∀ d : Core σ, d.waitingChunks = c.waitingChunks → d.log = c.log →
      d.window = c.window → d.ending = c.ending → d.Gathered := by
    intro d h1 h2 h3 h4
    exact h.congr (fun _ => h1 ▸ List.suffix_rfl) [] h2 (by simp) h3 (fun he => h4.trans he)
  have noted : ∀ (d : Core σ) (e : Event), e.isStill = true → d.waitingChunks = c.waitingChunks →
      d.log = e :: c.log → d.window = c.window → d.ending = c.ending → d.Gathered := by
    intro d e he h1 h2 h3 h4
    refine h.congr (fun _ => h1 ▸ List.suffix_rfl) [e] h2 ?_ h3 (fun hd => h4.trans hd)
    simpa using he
  cases hst with
  | same => exact h
  | accept req wants hc he hq => exact h.accept he hs.control.transforming hq req wants
  | @next req rest wants hc hw hq =>
    have htr : c.transforming = false := (hs.control.rest_before_next hc hw hq).2.2.1
    refine same _ ?_ rfl rfl rfl
    simp [waitingChunks, start, hw, hq, htr]
  | demand => exact same _ rfl rfl rfl rfl
  | close => exact h.close
  | ending =>
    exact h.congr (fun _ => List.suffix_rfl) [] rfl (by simp) rfl (fun _ => rfl)
  | finish => exact same _ rfl rfl rfl rfl
  | @call call forceFlush hc => exact h.call hs hm hc (hok call forceFlush rfl hc)
  | settle k _ hk =>
    have hat := hs.control.waits hk
    refine noted _ (.transformCb k true) rfl (waitingChunks_settle hat) hat.settle.2.2.2.2.2 ?_ ?_
    · refine (transformCb_constant k true).1.trans ?_
      cases k <;> rfl
    · refine (transformCb_ending k true).trans ?_
      cases k <;> rfl
  | @work w ctx calls => exact noted _ (.work calls) rfl rfl rfl rfl rfl
  | workFail => exact same _ rfl rfl rfl rfl
  | report => exact noted _ (.error (nativeError c.ctx.err)) rfl rfl rfl rfl rfl
  | @deliver k =>
    refine noted _ (.push c.ctx.outputBuffer) rfl ?_ ?_ ?_ ?_ <;> cases k <;> rfl
  | afterCallback => exact same _ rfl rfl rfl rfl
  | afterOnerror => exact same _ rfl rfl rfl rfl
  | endEvent =>
    have hend : (c.note .endEvent).Gathered := noted _ .endEvent rfl rfl rfl rfl rfl
    exact hend.close

end Core

end NodeVcdiff
