import NodeVcdiff.Control

/-!
# Where the bytes are

The bytes written so far are, in order, those handed to the native write, those held in
`_buffers` and those waiting in Node's queue. No byte is left behind a last write.
-/

namespace NodeVcdiff

variable {σ : Type*}

namespace History

variable {h h' : History}

/-- No byte is handed over once a last write was made. -/
def LastOnly (h : History) : Prop :=
  ∀ newer older, h = newer ++ older → older.lastWritten = true → newer.handed = []

theorem LastOnly.cons {e : Event} (hl : h.LastOnly)
    (he : ∀ l d, e = .nativeWrite l d → h.lastWritten = true → d = []) :
    History.LastOnly (e :: h) := by
  intro newer older heq hlast
  rcases newer with _ | ⟨e', newer⟩
  · rfl
  · obtain ⟨rfl, rfl⟩ := List.cons.inj heq
    have hold := hl newer older rfl hlast
    have hlast' : History.lastWritten (newer ++ older) = true := by
      simp only [lastWritten, List.any_append, Bool.or_eq_true] at hlast ⊢
      exact .inr hlast
    cases e with
    | nativeWrite l d => simp [handed, hold, he l d rfl hlast']
    | _ => exact hold

end History

namespace Core

variable {K : Coder σ} {c c' : Core σ}

/-- The bytes accepted and not yet taken by `_transform`, in order. -/
def waiting (c : Core σ) : Buffer :=
  ((if c.transforming then [] else c.writing.toList) ++ c.queue).flatMap WriteReq.chunk

/-- The bytes held by Node, that of the current chunk included. -/
def queued (c : Core σ) : Buffer := (c.writing.toList ++ c.queue).flatMap WriteReq.chunk

/-- Where the accepted bytes are. -/
structure Held (c : Core σ) : Prop where
  length_eq : c.length = c.queued.length
  nread_eq : c.nread = c.buffers.flatten.length
  taken_eq : c.log.taken = c.log.handed ++ c.buffers.flatten
  written_eq : ¬ c.log.Refused → c.log.written = c.log.taken ++ c.waiting
  small : c.buffers.flatten ≠ [] → c.window.le (.ofInt c.nread) = false
  decoded : c.mode = .decode → c.buffers = []
  emptied : c.transforming = true → ∀ req, c.writing = some req → req.chunk = [] →
    c.buffers = []
  last : c.log.lastWritten = true → c.ending = true ∧ c.buffers.flatten = [] ∧ c.waiting = []
  lastOnly : c.log.LastOnly
  finishing : c.eof = true ∨ 0 < c.done ∨ (c.ctx.workReq.isSome ∧ c.callback = some .done) →
    c.log.lastWritten = true

/-- A step that leaves buffers and queue alone and notes an event without bytes. -/
theorem Held.congr (h : c.Held) (h1 : c'.length = c.length) (h2 : c'.nread = c.nread)
    (h3 : c'.buffers = c.buffers) (h4 : c'.writing = c.writing) (h5 : c'.queue = c.queue)
    (h6 : c'.transforming = c.transforming) (h7 : c'.window = c.window) (h8 : c'.mode = c.mode)
    (h9 : c.ending = true → c'.ending = true)
    (hlog : c'.log = c.log ∨ ∃ e, c'.log = e :: c.log ∧ (∀ x, e ≠ .accept x) ∧
      (∀ x, e ≠ .take x) ∧ ∀ l x, e ≠ .nativeWrite l x)
    (hf : c'.eof = true ∨ 0 < c'.done ∨ (c'.ctx.workReq.isSome ∧ c'.callback = some .done) →
      c.eof = true ∨ 0 < c.done ∨ (c.ctx.workReq.isSome ∧ c.callback = some .done)) :
    c'.Held := by
  have hw : c'.waiting = c.waiting := by simp [waiting, h4, h5, h6]
  have hq : c'.queued = c.queued := by simp [queued, h4, h5]
  have hlogs : c'.log.taken = c.log.taken ∧ c'.log.handed = c.log.handed ∧
      c'.log.written = c.log.written ∧ c'.log.lastWritten = c.log.lastWritten ∧
      c'.log.LastOnly ∧ (∀ x ∈ c.log, x ∈ c'.log) := by
    rcases hlog with hlog | ⟨e, hlog, he1, he2, he3⟩
    · rw [hlog]; exact ⟨rfl, rfl, rfl, rfl, h.lastOnly, fun _ => id⟩
    · rw [hlog]
      refine ⟨?_, ?_, ?_, ?_, h.lastOnly.cons fun l d hd => absurd hd (he3 l d),
        fun x => List.mem_cons_of_mem e⟩
      all_goals
        cases e with
        | accept x => exact absurd rfl (he1 x)
        | take x => exact absurd rfl (he2 x)
        | nativeWrite l x => exact absurd rfl (he3 l x)
        | _ => rfl
  obtain ⟨l1, l2, l3, l4, l5, l6⟩ := hlogs
  refine ⟨?_, ?_, ?_, ?_, ?_, ?_, ?_, ?_, l5, ?_⟩
  · rw [h1, hq]; exact h.length_eq
  · rw [h2, h3]; exact h.nread_eq
  · rw [l1, l2, h3]; exact h.taken_eq
  · rw [l3, l1, hw]
    exact fun hn => h.written_eq fun ⟨k, hk⟩ => hn ⟨k, l6 _ hk⟩
  · rw [h3, h7, h2]; exact h.small
  · rw [h8, h3]; exact h.decoded
  · rw [h6, h4, h3]; exact h.emptied
  · rw [l4, h3, hw]
    exact fun hl => (h.last hl).imp_left h9
  · rw [l4]; exact fun hx => h.finishing (hf hx)

theorem Held.accept (h : c.Held) (he : c.ending = false) (req : WriteReq) (wants : Bool)
    (ht : c.transforming = true → c.writing.isSome)
    (hq : ¬ c.log.Refused → c.writing = none → c.queue = []) :
    (c.accept req wants).Held := by
  have hlast : c.log.lastWritten = false := by
    by_contra hne
    simp [(h.last (by simpa using hne)).1] at he
  have hfields : (c.accept req wants).nread = c.nread ∧ (c.accept req wants).buffers = c.buffers ∧
      (c.accept req wants).window = c.window ∧ (c.accept req wants).mode = c.mode ∧
      (c.accept req wants).log = .accept req.chunk :: c.log ∧
      (c.accept req wants).transforming = c.transforming ∧
      (c.accept req wants).length = c.length + req.chunk.length ∧
      (c.accept req wants).eof = c.eof ∧ (c.accept req wants).done = c.done ∧
      (c.accept req wants).ctx = c.ctx ∧ (c.accept req wants).callback = c.callback := by
    unfold Core.accept
    dsimp only
    split <;> exact ⟨rfl, rfl, rfl, rfl, rfl, rfl, rfl, rfl, rfl, rfl, rfl⟩
  obtain ⟨f1, f2, f3, f4, f5, f6, f7, f8, f9, f10, f11⟩ := hfields
  have hlen : (c.accept req wants).queued.length = c.queued.length + req.chunk.length := by
    unfold Core.accept
    cases hc : c.writing with
    | some r => simp [queued, hc, Nat.add_assoc]
    | none => simp [queued, start, hc, Nat.add_comm]
  have hbytes : ¬ c.log.Refused → (c.accept req wants).waiting = c.waiting ++ req.chunk := by
    intro hr
    unfold Core.accept
    cases hc : c.writing with
    | some r => cases htr : c.transforming <;> simp [waiting, hc, htr]
    | none =>
      have htr : c.transforming = false := by
        by_contra hne
        simpa [hc] using ht (by simpa using hne)
      simp [waiting, start, hc, hq hr hc, htr]
  refine ⟨?_, ?_, ?_, ?_, ?_, ?_, ?_, ?_, ?_, ?_⟩
  · rw [f7, hlen, h.length_eq]
  · rw [f1, f2]; exact h.nread_eq
  · rw [f5, f2]; exact h.taken_eq
  · rw [f5]
    intro hn
    have hr : ¬ c.log.Refused := fun hr => hn (History.refused_cons.mpr (.inr hr))
    rw [hbytes hr, History.written, History.taken, h.written_eq hr, List.append_assoc]
    · exact fun _ => by simp
  · rw [f2, f3, f1]; exact h.small
  · rw [f4, f2]; exact h.decoded
  · rw [f6, f2]
    intro htr r hr
    cases hc : c.writing with
    | none => simpa [hc] using ht htr
    | some r' =>
      have : (c.accept req wants).writing = c.writing := by simp [Core.accept, hc]
      rw [this] at hr
      exact h.emptied htr r hr
  · rw [f5]
    intro hl
    exact absurd (hl.symm.trans hlast) (by simp)
  · rw [f5]; exact h.lastOnly.cons (by simp)
  · rw [f5, f8, f9, f10, f11]
    exact fun hx => absurd (h.finishing hx) (by simp [hlast])

theorem Held.next (h : c.Held) (hw : c.writing = none) (ht : c.transforming = false)
    {req : WriteReq} {rest : List WriteReq} (hq : c.queue = req :: rest) (wants : Bool) :
    (({ c with queue := rest } : Core σ).start req wants).Held := by
  have hqueued : (({ c with queue := rest } : Core σ).start req wants).queued = c.queued := by
    simp [queued, start, hw, hq]
  have hwaiting : (({ c with queue := rest } : Core σ).start req wants).waiting = c.waiting := by
    simp [waiting, start, hw, hq, ht]
  exact { h with
    length_eq := by rw [hqueued]; exact h.length_eq
    written_eq := by rw [hwaiting]; exact h.written_eq
    emptied := fun htr => by simp [start, ht] at htr
    last := by rw [hwaiting]; exact h.last }

/-- The current chunk is done. -/
theorem Held.finishWriting (h : c.Held) {req : WriteReq} (hw : c.writing = some req) {b : Bool}
    (hb : b = true → c.transforming = true)
    (hf : c'.eof = c.eof ∧ (0 < c'.done → 0 < c.done) ∧ c'.ctx = c.ctx ∧
      c'.callback = c.callback)
    (hc : c'.nread = c.nread ∧ c'.buffers = c.buffers ∧ c'.window = c.window ∧
      c'.mode = c.mode ∧ c'.ending = c.ending)
    (h1 : c'.writing = none) (h2 : c'.queue = c.queue) (h3 : c'.transforming = false)
    (h4 : c'.length = c.length - req.chunk.length)
    (h5 : c'.log = .transformCb .afterTransform b :: c.log) : c'.Held := by
  have hq : c'.waiting = c.queue.flatMap WriteReq.chunk := by simp [waiting, h1, h2, h3]
  refine ⟨?_, ?_, ?_, ?_, ?_, ?_, ?_, ?_, ?_, ?_⟩
  · rw [h4, h.length_eq]
    simp [queued, h1, h2, hw]
  · rw [hc.1, hc.2.1]; exact h.nread_eq
  · rw [h5, hc.2.1]; exact h.taken_eq
  · intro hr
    have hb' : b = true := by
      by_contra hne
      exact hr (by rw [h5]; simp [Bool.eq_false_iff.mpr hne])
    have hold := h.written_eq fun hr' => hr (by rw [h5]; exact History.refused_cons.mpr (.inr hr'))
    rw [h5, hq]
    simpa [History.written, History.taken, waiting, hb hb'] using hold
  · rw [hc.2.1, hc.2.2.1, hc.1]; exact h.small
  · rw [hc.2.2.2.1, hc.2.1]; exact h.decoded
  · simp [h3]
  · rw [h5, hc.2.2.2.2, hc.2.1, hq]
    intro hl
    obtain ⟨l1, l2, l3⟩ := h.last hl
    refine ⟨l1, l2, ?_⟩
    rw [waiting, List.flatMap_append, List.append_eq_nil_iff] at l3
    exact l3.2
  · rw [h5]; exact h.lastOnly.cons (by simp)
  · rw [h5, hf.1, hf.2.2.1, hf.2.2.2]
    exact fun hx => h.finishing (hx.imp_right (Or.imp_left hf.2.1))

/-! ## Taking a chunk -/

theorem waiting_begin (call : Calling) (ht : c.transforming = false) :
    c.waiting = c.chunkOf call ++ (c.begin call).waiting := by
  cases call with
  | transform sync => cases hw : c.writing <;> simp [waiting, begin, chunkOf, hw, ht]
  | flush => rfl

/-- `isLast` is set only when nothing is left to take. -/
theorem waiting_of_last (h : c.Held) {call : Calling}
    (hl : c.length = (c.chunkOf call).length) : (c.begin call).waiting = [] := by
  have hlen := h.length_eq
  rw [hl] at hlen
  cases call with
  | transform sync =>
    refine List.eq_nil_of_length_eq_zero ?_
    cases hw : c.writing with
    | none => simpa [queued, chunkOf, waiting, begin, hw] using hlen.symm
    | some req => simpa [queued, chunkOf, waiting, begin, hw] using hlen
  | flush =>
    have hq : c.queued = [] := List.eq_nil_of_length_eq_zero (by simpa [chunkOf] using hlen.symm)
    rw [queued, List.flatMap_append, List.append_eq_nil_iff] at hq
    cases htr : c.transforming <;> simp [waiting, begin, htr, hq]

theorem begin_fields (call : Calling) : (c.begin call).nread = c.nread ∧
    (c.begin call).buffers = c.buffers ∧ (c.begin call).window = c.window ∧
    (c.begin call).mode = c.mode ∧ (c.begin call).ending = c.ending ∧
    (c.begin call).log = c.log ∧ (c.begin call).length = c.length ∧
    (c.begin call).queued = c.queued ∧ (c.begin call).writing = c.writing ∧
    (c.begin call).eof = c.eof ∧ (c.begin call).done = c.done ∧ (c.begin call).ctx = c.ctx ∧
    (c.begin call).callback = c.callback := by
  cases call <;> exact ⟨rfl, rfl, rfl, rfl, rfl, rfl, rfl, rfl, rfl, rfl, rfl, rfl, rfl⟩

theorem concat_eq {list : List Buffer} {n : ℕ} (h : n = list.flatten.length) :
    Engine.concat list n = list.flatten := by
  rw [Engine.concat, h, List.take_length]

theorem Held.running (h : c.Held) {call : Calling} (ht : c.transforming = false)
    (hd : c.done = 0) (hw : c.ctx.workReq = none)
    (hfl : call = .flush → c.ending = true ∧ c.length = 0) (forceFlush : Bool) :
    (c.running call forceFlush).Held := by
  obtain ⟨f1, f2, f3, f4, f5, f6, f7, f8, f9, f10, f11, f12, f13⟩ := c.begin_fields call
  set chunk := c.chunkOf call with hchunk
  have hwait : c.waiting = chunk ++ (c.begin call).waiting := waiting_begin call ht
  have hbytes : c.log.lastWritten = true →
      c.buffers.flatten = [] ∧ chunk = [] ∧ (c.begin call).waiting = [] := fun hl => by
    have := (h.last hl).2
    rw [hwait, List.append_eq_nil_iff] at this
    exact this
  have hnread : (c.nread + chunk.length) = (c.buffers ++ [chunk]).flatten.length := by
    simp [h.nread_eq]
  have hfinish : c.eof = true ∨ 0 < c.done ∨ (c.ctx.workReq.isSome ∧ c.callback = some .done) →
      c.eof = true := by
    rintro (he | hdn | ⟨hws, _⟩)
    · exact he
    · omega
    · simp [hw] at hws
  unfold Core.running
  dsimp only
  split
  · next hfull =>
    have hdata : Engine.concat ((c.begin call).take chunk).buffers ((c.begin call).take chunk).nread =
        c.buffers.flatten ++ chunk := by
      rw [concat_eq]
      · simp [take, f2]
      · simp [take, f1, f2, h.nread_eq]
    set last := c.ending && decide (c.length = chunk.length) with hlast
    set d := ((c.begin call).take chunk).submit last call.callback with hd'
    have hlog : d.log = .nativeWrite last (c.buffers.flatten ++ chunk) :: .take chunk :: c.log := by
      rw [hd', submit, hdata]; simp [take, f6]
    have hwaiting : d.waiting = (c.begin call).waiting := by cases call <;> rfl
    refine ⟨?_, rfl, ?_, ?_, ?_, fun _ => rfl, fun _ _ _ _ => rfl, ?_, ?_, ?_⟩
    · exact f7.trans (h.length_eq.trans (congrArg List.length f8.symm))
    · rw [hlog]
      simp [History.taken, History.handed, h.taken_eq, hd', submit]
    · rw [hlog, hwaiting]
      intro hr
      have hold := h.written_eq fun hr' => hr (by simp [hr'])
      simp only [History.written, History.taken]
      rw [hold, hwait, List.append_assoc]
    · exact fun hne => absurd rfl hne
    · rw [hlog, hwaiting]
      intro hl
      refine ⟨f5.trans ?_, rfl, ?_⟩
      · cases hl' : last with
        | true => simp [hlast] at hl'; exact hl'.1
        | false => exact (h.last (by simpa [History.lastWritten, hl'] using hl)).1
      · cases hl' : last with
        | true => exact waiting_of_last h (by simp [hlast] at hl'; exact hl'.2)
        | false => exact (hbytes (by simpa [History.lastWritten, hl'] using hl)).2.2
    · rw [hlog]
      refine (h.lastOnly.cons (by simp)).cons fun l x heq hl => ?_
      obtain ⟨rfl, rfl⟩ : last = l ∧ _ = x := by simpa using heq
      have := hbytes (by simpa [History.lastWritten] using hl)
      simp [this]
    · rw [hlog]
      rintro (he | hdn | ⟨_, hcb⟩)
      · have := h.finishing (.inl (f10 ▸ he))
        simp only [History.lastWritten, List.any_cons, Bool.or_eq_true] at this ⊢
        exact .inr (.inr this)
      · exact absurd (f11.symm ▸ hd : (c.begin call).done = 0) (Nat.pos_iff_ne_zero.mp hdn)
      · cases call with
        | transform sync => cases hcb
        | flush =>
          have := hfl rfl
          simp [History.lastWritten, hlast, this, hchunk, chunkOf]
  · next hfull =>
    simp only [full, Bool.or_eq_true, not_or, Bool.not_eq_true, decide_eq_false_iff_not] at hfull
    obtain ⟨⟨hwin, -, hlen⟩, hmode⟩ := hfull
    set d := ((c.begin call).take chunk).park call.callback with hd'
    have hd1 : d.nread = c.nread + chunk.length ∧ d.buffers = c.buffers ++ [chunk] ∧
        d.window = c.window ∧ d.mode = c.mode ∧ d.ending = c.ending ∧
        d.log = .take chunk :: c.log ∧ d.length = c.length ∧ d.queued = c.queued ∧
        d.waiting = (c.begin call).waiting ∧ d.writing = c.writing ∧ d.eof = c.eof ∧
        d.ctx = c.ctx := by
      cases call <;> exact ⟨rfl, rfl, rfl, rfl, rfl, rfl, rfl, rfl, rfl, rfl, rfl, rfl⟩
    obtain ⟨d1, d2, d3, d4, d5, d6, d7, d8, d9, d10, d11, d12⟩ := hd1
    refine ⟨?_, ?_, ?_, ?_, ?_, ?_, ?_, ?_, ?_, ?_⟩
    · rw [d7, d8]; exact h.length_eq
    · rw [d1, d2, hnread]
    · rw [d6, d2]
      simp [History.taken, History.handed, h.taken_eq]
    · rw [d6, d9]
      intro hr
      have hold := h.written_eq fun hr' => hr (by simp [hr'])
      simp only [History.written, History.taken]
      rw [hold, hwait, List.append_assoc]
    · rw [d3, d1]
      intro _
      have : ((c.begin call).take chunk).window = c.window := by cases call <;> rfl
      have hn : ((c.begin call).take chunk).nread = c.nread + chunk.length := by cases call <;> rfl
      rw [this, hn] at hwin
      exact hwin
    · rw [d4]
      exact fun hm => absurd (by cases call <;> exact hm) hmode
    · intro htr req hreq hempty
      cases call with
      | transform sync =>
        refine absurd ?_ hlen
        rw [d10] at hreq
        simp [chunkOf, hreq, hempty]
      | flush => exact absurd rfl hlen
    · rw [d6, d5, d2, d9]
      intro hl
      have hl' : c.log.lastWritten = true := by simpa [History.lastWritten] using hl
      obtain ⟨b1, b2, b3⟩ := hbytes hl'
      exact ⟨(h.last hl').1, by simp [b1, b2], b3⟩
    · rw [d6]; exact h.lastOnly.cons (by simp)
    · rw [d6, d11, d12]
      rintro (he | hdn | ⟨hws, _⟩)
      · have := h.finishing (.inl he)
        simpa [History.lastWritten] using this
      · cases call with
        | transform sync => exact absurd hd (Nat.pos_iff_ne_zero.mp hdn)
        | flush => exact absurd rfl hlen
      · simp [hw] at hws

end Core

end NodeVcdiff
