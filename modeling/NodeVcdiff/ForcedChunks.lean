import NodeVcdiff.Windows

/-!
# Chunks driven out by a flush

A pending flush drives out every chunk up to the end of the queue. The law of windows holds in
a run exactly as long as each of them ends at a flush point, or with the input.
-/

namespace NodeVcdiff

open Script (Number)
open Transition (Reaches anyStep)

namespace Core

variable {σ : Type*} {K : Coder σ} {c c' : Core σ}

/-- Every flush point is behind the bytes taken, or its empty chunk waits. -/
def Pointed (c : Core σ) : Prop :=
  ¬ c.log.Refused → ∀ p ∈ c.log.flushPoints, p ≤ c.log.taken.length ∨
    ∃ l r, c.waitingChunks = l ++ [] :: r ∧ p = c.log.taken.length + l.flatten.length

theorem Pointed.congr (h : c.Pointed) (h1 : c'.log.flushPoints = c.log.flushPoints)
    (h2 : c'.log.taken = c.log.taken) (h3 : c.log.Refused → c'.log.Refused)
    (h4 : ¬ c'.log.Refused → c'.waitingChunks = c.waitingChunks) : c'.Pointed := by
  intro hr
  rw [h1, h2, h4 hr]
  exact h fun hn => hr (h3 hn)

theorem Pointed.accept (h : c.Pointed) (hs : c.Sound)
    (hq : ¬ c.log.Refused → c.writing = none → c.queue = []) (req : WriteReq) (wants : Bool) :
    (c.accept req wants).Pointed := by
  have hlog : (c.accept req wants).log = .accept req.chunk :: c.log := by
    unfold Core.accept
    dsimp only
    split <;> rfl
  intro hr p hp
  have hr' : ¬ c.log.Refused := fun hn => hr (by simp [hlog, hn])
  have hold : p ∈ c.log.flushPoints → p ≤ c.log.taken.length ∨ ∃ l r,
      c.waitingChunks ++ [req.chunk] = l ++ [] :: r ∧
        p = c.log.taken.length + l.flatten.length := by
    intro hp
    refine (h hr' p hp).imp_right ?_
    rintro ⟨l, r, heq, rfl⟩
    exact ⟨l, r ++ [req.chunk], by simp [heq], rfl⟩
  rw [hlog, waitingChunks_accept hs.control.transforming (hq hr')]
  rw [hlog, History.flushPoints] at hp
  split at hp
  · next hempty =>
    rcases List.mem_cons.mp hp with rfl | hp
    · right
      refine ⟨c.waitingChunks, [], ?_, ?_⟩
      · rw [List.isEmpty_iff.mp hempty]
      · rw [flatten_waitingChunks, hs.held.written_eq hr', List.length_append]
        rfl
    · exact hold hp
  · exact hold hp

theorem Pointed.call (h : c.Pointed) (hs : c.Sound) {call : Calling}
    (hc : c.calling = some call) (forceFlush : Bool) :
    (c.runCalling call forceFlush).Pointed := by
  have hat := hs.control.called hc
  have htr : c.transforming = false := hat.2.2.1
  rw [runCalling_eq hat hs.control.flags]
  split
  · intro hr
    refine absurd ?_ hr
    rw [(c.turnedDown call).log]
    exact ⟨_, List.mem_cons_self⟩
  · -- in both cases the chunk of the call moves to the bytes taken
    have key : ∀ d : Core σ, d.log.flushPoints = c.log.flushPoints →
        d.log.taken = c.log.taken ++ c.chunkOf call → (c.log.Refused → d.log.Refused) →
        d.waitingChunks = (c.begin call).waitingChunks → d.Pointed := by
      intro d h1 h2 h3 h4 hr p hp
      rw [h1] at hp
      rw [h2, h4, List.length_append]
      rcases h (fun hn => hr (h3 hn)) p hp with hle | ⟨l, r, heq, rfl⟩
      · left
        omega
      · cases call with
        | flush => exact .inr ⟨l, r, heq, by simp [chunkOf]⟩
        | transform sync =>
          obtain ⟨req, hreq⟩ := Option.isSome_iff_exists.mp hat.2.2.2.2.2
          have hchunks : c.waitingChunks = c.chunkOf (.transform sync) ::
              (c.begin (.transform sync)).waitingChunks := by
            simp [waitingChunks, begin, chunkOf, hreq, htr]
          rw [hchunks] at heq
          cases l with
          | nil => left; simp
          | cons x l =>
            obtain ⟨rfl, hrest⟩ := List.cons.inj heq
            refine .inr ⟨l, r, hrest, ?_⟩
            simp only [List.flatten_cons, List.length_append]
            omega
    have cons (e : Event) (log : List Event) (hr : History.Refused log) :
        History.Refused (e :: log) := History.refused_cons.mpr (.inr hr)
    unfold Core.running
    dsimp only
    split
    · cases call <;> exact key _ rfl rfl (fun hr => cons _ _ (cons _ _ hr)) rfl
    · cases call <;> exact key _ rfl rfl (fun hr => cons _ _ hr) rfl

theorem Pointed.close (h : c.Pointed) : c.close.Pointed := by
  have hnote : (c.note .close).Pointed :=
    h.congr rfl rfl (fun hr => by simp [note, hr]) (fun _ => rfl)
  unfold Core.close
  dsimp only
  split
  · exact hnote
  · split
    · exact hnote.congr rfl rfl (fun hr => History.refused_cons.mpr (.inr hr)) (fun _ => rfl)
    · exact hnote.congr rfl rfl id (fun _ => rfl)

theorem Pointed.step (h : c.Pointed) (hs : c.Sound) (hst : c.Step K c') : c'.Pointed := by
  have cons : ∀ e : Event, c.log.Refused → History.Refused (e :: c.log) :=
    fun e hr => History.refused_cons.mpr (.inr hr)
  cases hst with
  | same => exact h
  | accept req wants hc he hq => exact h.accept hs hq req wants
  | @next req rest wants hc hw hq =>
    have htr : c.transforming = false := (hs.control.rest_before_next hc hw hq).2.2.1
    exact h.congr rfl rfl id fun _ => by simp [waitingChunks, start, hw, hq, htr]
  | demand => exact h.congr rfl rfl id (fun _ => rfl)
  | close => exact h.close
  | ending => exact h.congr rfl rfl id (fun _ => rfl)
  | finish => exact h.congr rfl rfl id (fun _ => rfl)
  | call forceFlush hc => exact h.call hs hc forceFlush
  | settle k _ hk =>
    have hat := hs.control.waits hk
    have hlog := hat.settle.2.2.2.2.2
    refine h.congr ?_ ?_ ?_ fun _ => waitingChunks_settle hat
    · rw [hlog]; rfl
    · rw [hlog]; rfl
    · rw [hlog]; exact cons _
  | work => exact h.congr rfl rfl (cons _) (fun _ => rfl)
  | workFail => exact h.congr rfl rfl id (fun _ => rfl)
  | report => exact h.congr rfl rfl (cons _) (fun _ => rfl)
  | @deliver k =>
    cases k
    · exact h.congr rfl rfl (cons _) (fun _ => rfl)
    · exact h.congr rfl rfl (cons _) (fun _ => rfl)
  | afterCallback => exact h.congr rfl rfl id (fun _ => rfl)
  | afterOnerror => exact h.congr rfl rfl id (fun _ => rfl)
  | endEvent =>
    have hend : (c.note .endEvent).Pointed := h.congr rfl rfl (cons _) (fun _ => rfl)
    exact hend.close

/-- A chunk that is forced out anywhere else leaves a short buffer inside the input. -/
theorem Pointed.misplaced (h : c.Pointed) (hs : c.Sound) (hn : c.window ≠ .nan) {call : Calling}
    (hc : c.calling = some call) {forceFlush : Bool} (hno : ¬ c.ForcedInPlace call forceFlush) :
    ¬ (c.runCalling call forceFlush).log.Windowed c.window c.ending := by
  have hat := hs.control.called hc
  simp only [ForcedInPlace, Classical.not_imp, not_or, Bool.not_eq_true] at hno
  obtain ⟨hcl, hff, hcall, hne, hwin, hplace⟩ := hno
  have href : ¬ c.log.Refused := fun hr => by
    simp [(hs.control.noted.refused hr).1] at hcl
  obtain ⟨sync, rfl⟩ : ∃ sync, call = .transform sync := by
    cases call with
    | transform sync => exact ⟨sync, rfl⟩
    | flush => exact absurd rfl hcall
  obtain ⟨req, hreq⟩ := Option.isSome_iff_exists.mp hat.2.2.2.2.2
  have hchunk : c.chunkOf (.transform sync) = req.chunk := by simp [chunkOf, hreq]
  rw [hchunk] at hne hwin
  have htr : c.transforming = false := hat.2.2.1
  have hlog : (c.runCalling (.transform sync) forceFlush).log =
      .nativeWrite (c.ending && decide (c.length = req.chunk.length))
        (c.buffers.flatten ++ req.chunk) :: .take req.chunk :: c.log := by
    rw [runCalling_eq hat hs.control.flags, if_neg (by simp [hcl])]
    have hdata : Engine.concat (c.buffers ++ [req.chunk]) (c.nread + req.chunk.length) =
        c.buffers.flatten ++ req.chunk := by
      rw [concat_eq]
      · simp
      · simp [hs.held.nread_eq]
    simp only [running, hchunk, full, hff, Bool.true_or, Bool.or_true, if_true, submit]
    simp [take, begin, hdata]
  intro hw
  rw [hlog] at hw
  have hlt : (Number.ofInt (c.buffers.flatten ++ req.chunk).length).lt c.window = true := by
    rw [Number.lt_eq_not_le _ _ (by simp [Number.ofInt]) hn, List.length_append,
      ← hs.held.nread_eq, hwin]
    rfl
  have hpos := hw [] _ _ _ rfl (by simp [hne]) hlt
  have hchunks : c.waitingChunks = req.chunk :: c.queue.map WriteReq.chunk := by
    simp [waitingChunks, hreq, htr]
  have hbytes : c.log.written.length = c.log.taken.length + req.chunk.length +
      ((c.queue.map WriteReq.chunk).flatten).length := by
    rw [hs.held.written_eq href, ← flatten_waitingChunks, hchunks]
    simp [Nat.add_assoc]
  have hlen : (History.handed (.take req.chunk :: c.log) ++
      (c.buffers.flatten ++ req.chunk)).length = c.log.taken.length + req.chunk.length := by
    rw [hs.held.taken_eq]
    simp [History.handed, Nat.add_assoc]
  have hpositive : 0 < req.chunk.length := List.length_pos_iff.mpr hne
  rw [hlen] at hpos
  rcases hpos with hp | ⟨hend, hp⟩
  · rcases h href _ hp with hle | ⟨l, r, heq, hp⟩
    · omega
    · rw [hchunks] at heq
      cases l with
      | nil => exact hne (List.cons.inj heq).1
      | cons x l =>
        obtain ⟨rfl, hrest⟩ := List.cons.inj heq
        simp only [List.flatten_cons, List.length_append] at hp
        have hl : l.flatten.length = 0 := by omega
        cases hq : c.queue with
        | nil => simp [hq] at hrest
        | cons next rest =>
          rw [hq] at hplace hrest
          cases l with
          | nil => exact hplace (List.cons.inj hrest).1
          | cons y l =>
            obtain ⟨rfl, -⟩ := List.cons.inj hrest
            simp only [List.flatten_cons, List.length_append] at hl
            exact hplace (List.eq_nil_of_length_eq_zero (by omega))
  · simp only [History.written] at hp
    cases hq : c.queue with
    | nil => rw [hq] at hplace; exact hplace hend
    | cons next rest =>
      rw [hq] at hplace hbytes
      simp only [List.map_cons, List.flatten_cons, List.length_append] at hbytes
      exact hplace (List.eq_nil_of_length_eq_zero (by omega))

end Core

namespace Engine

variable {σ : Type*} {K : Coder σ} {s s' : Engine σ} {a : Act} {m : Number} {h : ℤ} {x : σ}

/-- A chunk that starts while a flush is pending fills the window, or may end a buffer. -/
def Act.inPlace (s : Engine σ) : Act → Prop
  | .run =>
    match s.calling, s.ws.writing with
    | some (.transform _), some req =>
      s.vcd.closed = false → s.vcd.forceFlush = true → req.chunk ≠ [] →
        s.vcd.minEncodeWindowSize.le (.ofInt (s.vcd.nread + req.chunk.length : ℕ)) = true ∨
          Core.EndsInPlace s.ws.bufferedRequest s.ws.ending
    | _, _ => True
  | _ => True

instance (s : Engine σ) (a : Act) : Decidable (a.inPlace s) := by
  unfold Act.inPlace
  split
  · split <;> infer_instance
  · infer_instance

theorem inPlace_iff (hi : s.Invariant) {call : Calling} (hc : s.calling = some call) :
    Act.inPlace s .run ↔ s.core.ForcedInPlace call s.vcd.forceFlush := by
  have hat := hi.sound.control.called (show s.core.calling = some call from hc)
  unfold Act.inPlace Core.ForcedInPlace
  rw [hc]
  cases call with
  | flush => simp
  | transform sync =>
    obtain ⟨req, hreq⟩ := Option.isSome_iff_exists.mp hat.2.2.2.2.2
    have hw : s.ws.writing = some req := hreq
    have hchunk : s.core.chunkOf (.transform sync) = req.chunk := by
      simp [Core.chunkOf, hreq]
    rw [hchunk, hw]
    simp [core]

theorem gathered_step (hi : s.Invariant) (hg : s.core.Gathered)
    (hm : s.vcd.mode = .encode) (hok : a.inPlace s) (hs : step K s a = some s') :
    s'.core.Gathered := by
  have hstep := hi.core_step hs
  cases hc : s.calling with
  | none => exact hg.step hi.sound hm (fun _ _ _ hc' => by simp [core, hc] at hc') hstep
  | some call =>
    -- only the call itself and the worker run now
    obtain ⟨-, hmove⟩ := step_moves hs
    cases hmove with
    | work =>
      rw [core_note_flow rfl]
      exact hg.congr (fun _ => List.suffix_rfl) [.work _] rfl (by simp [Event.isStill]) rfl id
    | workFail => exact hg.congr (fun _ => List.suffix_rfl) [] rfl (by simp) rfl id
    | calling hc' =>
      obtain rfl := Option.some.inj (hc.symm.trans hc')
      rw [core_runCalling _ hi.shape.ended]
      exact hg.call hi.sound hm hc ((inPlace_iff hi hc).mp hok)
    | afterShim hn => simp [hn] at hc
    | tick _ hl => simp [atLoop_calling hl] at hc
    | emitEnd hl => simp [atLoop_calling hl] at hc
    | frame hn => simp [hn] at hc
    | user _ hu => simp [userPoint_calling hu] at hc

theorem gathered_run (hr : Reaches (step K) (fun s a => a.inPlace s) (init .encode m h x) s) :
    s.core.Gathered ∧ s.core.Pointed := by
  induction hr with
  | refl =>
    refine ⟨⟨fun _ l r heq => ?_, fun newer l b older heq => ?_⟩, fun _ p hp => ?_⟩
    · simp [Core.waitingChunks, core, init] at heq
    · simp [core, init] at heq
    · simp [core, init, History.flushPoints] at hp
  | tail hr hok hs ih =>
    have hi := Invariant.reaches hr
    have hm := (constant_of_reaches hr).2
    exact ⟨gathered_step hi ih.1 hm hok hs, ih.2.step hi.sound (hi.core_step hs)⟩

/-- A step that breaks the condition breaks the law. -/
theorem misplaced_step (hi : s.Invariant) (hp : s.core.Pointed)
    (hn : s.vcd.minEncodeWindowSize ≠ .nan) (hno : ¬ a.inPlace s) (hs : step K s a = some s') :
    ¬ s'.log.Windowed s.vcd.minEncodeWindowSize s'.ws.ending := by
  have hrun : a = .run := by
    by_contra hne
    cases a with
    | run => exact hne rfl
    | _ => exact hno trivial
  subst hrun
  obtain ⟨call, hc⟩ : ∃ call, s.calling = some call := by
    by_contra hne
    have hnone : s.calling = none := by
      cases hc : s.calling with
      | none => rfl
      | some call => exact absurd ⟨call, hc⟩ hne
    exact hno (by simp [Act.inPlace, hnone])
  have hcore : s'.core = s.core.runCalling call s.vcd.forceFlush := by
    obtain ⟨-, hmove⟩ := step_moves hs
    cases hmove with
    | calling hc' =>
      obtain rfl := Option.some.inj (hc.symm.trans hc')
      exact core_runCalling _ hi.shape.ended
    | frame hn => simp [hn] at hc
    | user _ _ hu => cases hu
  have hend : s'.ws.ending = s.ws.ending := step_ending hi.shape hs (by simp)
  rw [hend, ← History.flow_windowed, show s'.log.filter Event.isFlow = s'.core.log from rfl, hcore]
  exact hp.misplaced hi.sound hn hc (mt (inPlace_iff hi hc).mpr hno)

/-- An encoder hands over short buffers only where a flush was asked for or the input ends, as
long as every chunk that a pending flush drives out meets the condition; the first chunk that
does not meet it breaks the law. -/
theorem windows_minimal (hm : (Number.ofInt 0).lt m = true)
    (hr : Reaches (step K) (fun s a => a.inPlace s) (init .encode m h x) s) :
    s.log.Windowed m s.ws.ending ∧
      ∀ a s', step K s a = some s' → (s'.log.Windowed m s'.ws.ending ↔ a.inPlace s) := by
  have windowed : ∀ {t : Engine σ}, Reaches (step K) (fun s a => a.inPlace s) (init .encode m h x)
      t → t.log.Windowed m t.ws.ending := by
    intro t ht
    have hw := (gathered_run ht).1.windowed
    rw [show t.core.window = m from (constant_of_reaches ht).1] at hw
    exact History.flow_windowed.mp hw
  refine ⟨windowed hr, fun a s' hs => ⟨fun hw => ?_, fun hok => windowed (hr.tail hok hs)⟩⟩
  by_contra hno
  have hwin := (constant_of_reaches hr).1
  have hn : m ≠ .nan := by
    rintro rfl
    simp [Number.lt, Number.ofInt] at hm
  rw [← hwin] at hw hn
  exact misplaced_step (Invariant.reaches hr) (gathered_run hr).2 hn hno hs hw

/-- A chunk of one byte, forced out by a flush behind it. -/
theorem windows_minimal_copy : ∃ s, Reaches (step copyCoder) (fun s a => a.inPlace s)
      (init .encode (minEncodeWindowSizeOf none) 16384 ()) s ∧
    .nativeWrite false [1] ∈ s.log ∧
    s.log.Windowed (minEncodeWindowSizeOf none) s.ws.ending := by
  have hrun : ∃ s, Reaches (step copyCoder) (fun s a => a.inPlace s)
      (init .encode (minEncodeWindowSizeOf none) 16384 ()) s ∧
      .nativeWrite false [1] ∈ s.log :=
    Transition.exists_reaches ([.write [1], .run, .flush false, .write [2], .tick] ++
      .replicate 5 .run) (by decide +kernel)
  obtain ⟨s, hr, hn⟩ := hrun
  exact ⟨s, hr, hn, (windows_minimal (by decide) hr).1⟩

/-- Two chunks written behind a flush: the first of them goes out alone. -/
theorem window_cut_behind_flush : ∃ s, Reaches (step copyCoder) anyStep
      (init .encode (minEncodeWindowSizeOf none) 16384 ()) s ∧ s.log.written = [1, 2, 3] ∧
    s.log.flushPoints = [1] ∧ s.ws.ending = true ∧
    ¬ s.log.Windowed (minEncodeWindowSizeOf none) s.ws.ending := by
  have hrun : ∃ s, Reaches (step copyCoder) anyStep
      (init .encode (minEncodeWindowSizeOf none) 16384 ()) s ∧ s.log.written = [1, 2, 3] ∧
      s.log.flushPoints = [1] ∧ s.ws.ending = true ∧
      s.log.head? = some (.nativeWrite false [2]) ∧ History.handed s.log.tail = [1] :=
    Transition.exists_reaches ([.write [1], .run, .flush false, .write [2], .write [3],
      .endWritable, .run, .run, .tick] ++ .replicate 7 .run ++ [.work, .afterShim] ++
      .replicate 10 .run) (by decide +kernel)
  obtain ⟨s, hr, hwritten, hpoints, hend, hhead, hhanded⟩ := hrun
  refine ⟨s, hr, hwritten, hpoints, hend, fun hw => ?_⟩
  obtain ⟨older, hlog⟩ := List.head?_eq_some_iff.mp hhead
  rw [hlog, List.tail_cons] at hhanded
  have hpos := hw [] false [2] older hlog (by simp) (by decide)
  simp [hpoints, hwritten, hhanded] at hpos

end Engine

end NodeVcdiff
