import NodeVcdiff.Trace

/-!
# What the coder is fed

The calls in the history are an execution of the coder the stream was created with. The
chunks of its `Process` calls are the buffers handed to the native write, in order, and each
of these is put together from accepted chunks.
-/

namespace NodeVcdiff

open Script (Number)
open Transition (Reaches)

variable {σ : Type*}

/-! ## One execution of `Process` -/

namespace VcdCtx

variable {K : Coder σ} {c c' : VcdCtx σ} {x y : σ} {data : Buffer} {isLast : Bool}
  {cs new : List Call}

/-- The calls noted so far end in the coder that the context holds. -/
def EndsIn (K : Coder σ) (x : σ) (cs : List Call) (p : VcdCtx σ × List Call) : Prop :=
  ∃ y, p.1.coder = some y ∧ K.Trace x (cs ++ p.2) y

theorem stage_trace {want : State} {f : VcdCtx σ → σ → VcdCtx σ × List Call}
    {p : VcdCtx σ × List Call} (h : EndsIn K x cs p)
    (hf : ∀ y, p.1.coder = some y → K.Trace x (cs ++ p.2) y →
      EndsIn K x (cs ++ p.2) (f p.1 y)) : EndsIn K x cs (stage want f p) := by
  obtain ⟨y, hy, ht⟩ := h
  simp only [stage, hy]
  split
  · obtain ⟨z, hz, htz⟩ := hf y hy ht
    exact ⟨z, hz, by rw [← List.append_assoc]; exact htz⟩
  · exact ⟨y, hy, ht⟩

/-- `Process` calls the coder that the context holds, and keeps what it becomes. -/
theorem process_trace (hx : c.coder = some y) (h : K.Trace x cs y)
    (hp : c.process K data isLast = .ok (c', new)) :
    ∃ z, c'.coder = some z ∧ K.Trace x (cs ++ new) z := by
  unfold process at hp
  split at hp
  · cases hp
  · split at hp
    · cases hp
    · have heq := Except.ok.inj hp
      have h0 : EndsIn K x cs (c, []) := ⟨y, hx, by simpa using h⟩
      have h1 : EndsIn K x cs (stage .idle (processIdle K) (c, [])) :=
        stage_trace h0 fun y _ ht => ⟨_, rfl, ht.start⟩
      have h2 : EndsIn K x cs (stage .processing (fun c x => processData K c x data isLast) _) :=
        stage_trace h1 fun y _ ht => ⟨_, rfl, ht.process data⟩
      have h3 : EndsIn K x cs (stage .finalizing (processFinalizing K) _) :=
        stage_trace h2 fun y _ ht => ⟨_, rfl, ht.finish⟩
      rw [heq] at h3
      exact h3

theorem processShim_trace {w : WorkData} (hx : c.coder = some y) (h : K.Trace x cs y)
    (hp : c.processShim K w = .ok (c', new)) :
    ∃ z, c'.coder = some z ∧ K.Trace x (cs ++ new) z := by
  unfold processShim at hp
  cases hr : c.process K w.data w.isLast with
  | error e => rw [hr] at hp; cases hp
  | ok p =>
    obtain ⟨c₁, calls⟩ := p
    rw [hr] at hp
    cases hp
    obtain ⟨z, hz, ht⟩ := process_trace hx h hr
    exact ⟨z, hz, ht⟩

/-- The chunk that a call hands to `Process`. -/
def CallKind.chunk : CallKind → Option Buffer
  | .process d => some d
  | _ => none

theorem chunks_eq_kind (cs : List Call) :
    Call.chunks cs = (cs.map kind).filterMap CallKind.chunk := by
  rw [Call.chunks, List.filterMap_map]
  exact List.filterMap_congr fun q _ => by cases q <;> rfl

variable (data isLast) in
theorem chunk_script (first : Bool) : (script first data isLast).filterMap CallKind.chunk = [data] := by
  cases first <;> cases isLast <;> rfl

variable (data isLast) in
theorem script_eq (first : Bool) : ∃ pre, CallKind.finish ∉ pre ∧
    script first data isLast = pre ++ if isLast then [.finish] else [] :=
  ⟨(if first then [.start] else []) ++ [.process data], by cases first <;> simp,
    by simp [script]⟩

/-- A write hands over its data at most once, and not later than it finishes. -/
theorem Processed.chunks (hp : Processed c data isLast c' new) (hs : c.state ≠ .done)
    (ht : Tracks c' (cs ++ new)) :
    Call.chunks new <+: [data] ∧ (c'.state ≠ .done → Call.chunks new = [data]) ∧
      ((∃ q ∈ new, q.isFinish = true) → Call.chunks new = [data]) := by
  have hf := hp.follows hs
  refine ⟨?_, fun hlive => ?_, fun ⟨q, hq, hfin⟩ => ?_⟩
  · rw [chunks_eq_kind, ← chunk_script data isLast (decide (c.state = .idle))]
    exact hf.isPrefix.filterMap _
  · have hall : ∀ q ∈ new, q.failed = false := fun q hq =>
      (ht.live hlive q (List.mem_append_right _ hq)).2
    rw [chunks_eq_kind, hf.complete hall, chunk_script]
  · have hmem : CallKind.finish ∈ new.map kind := by
      refine List.mem_map.mpr ⟨q, hq, ?_⟩
      cases q <;> first | rfl | cases hfin
    have hpre := hf.isPrefix
    rw [chunks_eq_kind]
    obtain ⟨pre, hno, hsplit⟩ := script_eq data isLast (decide (c.state = .idle))
    have hscript := chunk_script data isLast (decide (c.state = .idle))
    rw [hsplit] at hpre hscript
    cases isLast with
    | false => exact absurd (by simpa using hpre.mem hmem) hno
    | true =>
      rcases List.prefix_concat_iff.mp hpre with heq | hpre
      · rw [heq]; exact hscript
      · exact absurd (hpre.mem hmem) hno

end VcdCtx

/-! ## The buffers handed over -/

namespace History

/-- The buffers handed to the native write, oldest first. -/
def handedBuffers : History → List Buffer
  | [] => []
  | .nativeWrite _ d :: h => handedBuffers h ++ [d]
  | _ :: h => handedBuffers h

theorem flatten_handedBuffers (h : History) : h.handedBuffers.flatten = h.handed := by
  induction h with
  | nil => rfl
  | cons e h ih =>
    cases e with
    | nativeWrite l d =>
      rw [handedBuffers, handed, List.flatten_append, ih, List.flatten_singleton]
    | _ => exact ih

theorem handedBuffers_append {h : History} (new : History) (hn : ∀ l b, .nativeWrite l b ∉ new) :
    handedBuffers (new ++ h) = h.handedBuffers := by
  induction new with
  | nil => rfl
  | cons e new ih =>
    have hrest := ih fun l b hm => hn l b (List.mem_cons_of_mem _ hm)
    cases e with
    | nativeWrite l b => exact absurd List.mem_cons_self (hn l b)
    | _ => exact hrest

end History

/-- An event that starts or carries out a native write. -/
def Event.isFeed : Event → Bool
  | .nativeWrite _ _ | .work _ => true
  | _ => false

theorem History.aloof_eq {new h : History} (hn : ∀ e ∈ new, e.isFeed = false) :
    History.handedBuffers (new ++ h) = h.handedBuffers ∧
      History.calls (new ++ h) = h.calls := by
  induction new with
  | nil => exact ⟨rfl, rfl⟩
  | cons e new ih =>
    have hrest := ih fun e' he' => hn e' (List.mem_cons_of_mem _ he')
    have he := hn e List.mem_cons_self
    cases e with
    | nativeWrite | work => cases he
    | _ => exact hrest

namespace Core

variable {K : Coder σ} {c c' : Core σ} {x : σ}

/-- The buffer queued for the worker. -/
def inFlightBuffers (c : Core σ) : List Buffer :=
  match c.ctx.workReq with
  | some w => if c.ctx.workDone then [] else [w.data]
  | none => []

/-- A step that neither starts nor carries out a native write. -/
structure Aloof (c c' : Core σ) : Prop where
  log : ∃ new : History, c'.log = new ++ c.log ∧ ∀ e ∈ new, e.isFeed = false
  state : c'.ctx.state = c.ctx.state
  coder : c'.ctx.coder = c.ctx.coder ∨ c'.ctx.coder = none
  inFlight : c'.inFlightBuffers = c.inFlightBuffers

theorem Aloof.of_ctx (new : History) (hlog : c'.log = new ++ c.log)
    (hn : ∀ e ∈ new, e.isFeed = false) (hctx : c'.ctx = c.ctx) : Aloof c c' where
  log := ⟨new, hlog, hn⟩
  state := by rw [hctx]
  coder := .inl (by rw [hctx])
  inFlight := by rw [inFlightBuffers, inFlightBuffers, hctx]

theorem Aloof.after {d : Core σ} (h' : Aloof c' d) (h : Aloof c c') : Aloof c d := by
  obtain ⟨new, hlog, hn⟩ := h.log
  obtain ⟨new', hlog', hn'⟩ := h'.log
  refine ⟨⟨new' ++ new, ?_, ?_⟩, h'.state.trans h.state, ?_, h'.inFlight.trans h.inFlight⟩
  · rw [hlog', hlog, List.append_assoc]
  · intro e he
    exact (List.mem_append.mp he).elim (hn' e) (hn e)
  · rcases h'.coder with hc | hc
    · rw [hc]; exact h.coder
    · exact .inr hc

theorem aloof_close : Aloof c c.close := by
  have hx := VcdCtx.sameWork_close c.ctx
  unfold Core.close
  dsimp only
  split
  · exact .of_ctx [.close] rfl (by simp [Event.isFeed]) rfl
  · split
    · exact ⟨⟨[.nativeClose, .close], rfl, by simp [Event.isFeed]⟩, hx.state, hx.coder, by
        simp only [inFlightBuffers, note, hx.workReq, hx.workDone]⟩
    · exact .of_ctx [.close] rfl (by simp [Event.isFeed]) rfl

/-- A call is refused, keeps its chunk, or hands everything over. -/
theorem feeding_call (hs : c.Sound) {call : Calling} (hc : c.calling = some call)
    (forceFlush : Bool) : Aloof c (c.runCalling call forceFlush) ∨
      ∃ l, c.runCalling call forceFlush =
        ((c.begin call).take (c.chunkOf call)).submit l call.callback := by
  have hat := hs.control.called hc
  rw [runCalling_eq hat hs.control.flags]
  split
  · have hd := c.turnedDown call
    exact .inl (.of_ctx [.transformCb call.callback false] hd.log (by simp [Event.isFeed]) hd.ctx)
  · unfold running
    dsimp only
    split
    · exact .inr ⟨_, rfl⟩
    · left
      cases call <;> exact .of_ctx [.take _] rfl (by simp [Event.isFeed]) rfl

/-- What a step does to the coder and its input. -/
theorem Step.feeding (hs : c.Sound) (h : c.Step K c') : Aloof c c' ∨
    (∃ call l, c.calling = some call ∧
      c' = ((c.begin call).take (c.chunkOf call)).submit l call.callback) ∨
    ∃ w ctx calls, c.ctx.workReq = some w ∧ c.ctx.workDone = false ∧
      c.ctx.processShim K w = .ok (ctx, calls) ∧ c' = ({ c with ctx } : Core σ).note (.work calls) := by
  cases h with
  | same | demand | ending | finish | next | workFail =>
    exact .inl (.of_ctx [] rfl (by simp) rfl)
  | accept req wants =>
    left
    unfold Core.accept
    dsimp only
    split <;> exact .of_ctx [.accept req.chunk] rfl (by simp [Event.isFeed]) rfl
  | close => exact .inl aloof_close
  | endEvent =>
    exact .inl (aloof_close.after (.of_ctx [.endEvent] rfl (by simp [Event.isFeed]) rfl))
  | @call call forceFlush hc =>
    refine (feeding_call hs hc forceFlush).imp_right fun ⟨l, hl⟩ => .inl ⟨call, l, hc, hl⟩
  | settle k _ hk =>
    obtain ⟨-, -, -, -, hctx, hlog⟩ := (hs.control.waits hk).settle
    exact .inl (.of_ctx [_] hlog (by simp [Event.isFeed]) hctx)
  | @work w ctx calls hw hd hp => exact .inr (.inr ⟨w, ctx, calls, hw, hd, hp, rfl⟩)
  | report _ hw hd =>
    left
    refine ⟨⟨[_], rfl, by simp [Event.isFeed]⟩, rfl, .inl rfl, ?_⟩
    obtain ⟨w, hw⟩ := Option.isSome_iff_exists.mp hw
    simp [inFlightBuffers, Core.report, note, hw, hd]
  | @deliver k _ hw hd =>
    left
    obtain ⟨w, hw⟩ := Option.isSome_iff_exists.mp hw
    cases k <;>
      exact ⟨⟨[.push c.ctx.outputBuffer], rfl, by simp [Event.isFeed]⟩, rfl, .inl rfl,
        by simp [inFlightBuffers, Core.deliver, note, park, VcdCtx.finishWrite, hw, hd]⟩
  | afterCallback =>
    left
    have hx := VcdCtx.sameWork_afterCallback c.ctx
    exact ⟨⟨[], rfl, by simp⟩, hx.state, hx.coder, by
      simp only [inFlightBuffers, hx.workReq, hx.workDone]⟩
  | afterOnerror =>
    left
    have hx := VcdCtx.sameWork_afterOnerror c.ctx
    exact ⟨⟨[], rfl, by simp⟩, hx.state, hx.coder, by
      simp only [inFlightBuffers, hx.workReq, hx.workDone]⟩

variable (K x) in
/-- The coder was given the buffers handed over, and its calls are its own. -/
structure Fed (c : Core σ) : Prop where
  trace : ∃ y, K.Trace x c.log.calls y ∧ ∀ z, c.ctx.coder = some z → z = y
  isPrefix : Call.chunks c.log.calls <+: c.log.handedBuffers
  live : c.ctx.state ≠ .done →
    c.log.handedBuffers = Call.chunks c.log.calls ++ c.inFlightBuffers
  finished : (∃ q ∈ c.log.calls, q.isFinish = true) → c.log.processed = c.log.handed
  fed : (∃ q ∈ c.log.calls, q.isFinish = true) → Call.chunks c.log.calls ≠ []

theorem Fed.aloof (h : Fed K x c) (ha : Aloof c c') : Fed K x c' := by
  obtain ⟨⟨new, hlog, hn⟩, hstate, hcoder, hin⟩ := ha
  obtain ⟨hb, hc⟩ := History.aloof_eq (h := c.log) hn
  obtain ⟨y, ht, hy⟩ := h.trace
  refine ⟨⟨y, ?_, fun z hz => ?_⟩, ?_, ?_, ?_, ?_⟩
  · rw [hlog, hc]; exact ht
  · rcases hcoder with he | he
    · exact hy z (he ▸ hz)
    · rw [he] at hz; cases hz
  · rw [hlog, hb, hc]; exact h.isPrefix
  · rw [hlog, hb, hc, hstate, hin]; exact h.live
  · rw [History.processed, ← History.flatten_handedBuffers, hlog, hb, hc,
      History.flatten_handedBuffers]
    exact h.finished
  · rw [hlog, hc]; exact h.fed

theorem Fed.submit (h : Fed K x c) (hs : c.Sound) {call : Calling} (hc : c.calling = some call)
    {l : Bool} (hs' : (((c.begin call).take (c.chunkOf call)).submit l call.callback).Sound) :
    Fed K x (((c.begin call).take (c.chunkOf call)).submit l call.callback) := by
  set d := ((c.begin call).take (c.chunkOf call)).submit l call.callback with hd
  obtain ⟨b, hlog⟩ : ∃ b, d.log = .nativeWrite l b :: .take (c.chunkOf call) :: c.log ∧
      d.inFlightBuffers = [b] := by
    cases call <;> exact ⟨_, rfl, rfl⟩
  obtain ⟨hlog, hin⟩ := hlog
  have hstate : d.ctx.state = c.ctx.state := by cases call <;> rfl
  have hcoder : d.ctx.coder = c.ctx.coder := by cases call <;> rfl
  have hnone : c.inFlightBuffers = [] := by
    simp [inFlightBuffers, (hs.control.called hc).2.1.workReq]
  have hcalls : d.log.calls = c.log.calls := by rw [hlog]; rfl
  have hbuf : d.log.handedBuffers = c.log.handedBuffers ++ [b] := by rw [hlog]; rfl
  refine ⟨?_, ?_, fun hlive => ?_, fun hfin => ?_, hcalls ▸ h.fed⟩
  · rw [hcalls, hcoder]; exact h.trace
  · rw [hcalls, hbuf]; exact h.isPrefix.trans (List.prefix_append _ _)
  · rw [hstate] at hlive
    rw [hcalls, hbuf, hin, h.live hlive, hnone, List.append_nil]
  · rw [hcalls] at hfin
    have hb : b = [] := by
      have := hs'.held.lastOnly [.nativeWrite l b, .take (c.chunkOf call)] c.log hlog
        (hs.coded.finishLast [] _ rfl hfin)
      simpa [History.handed] using this
    rw [History.processed, hcalls]
    have hold : c.log.handed = d.log.handed := by rw [hlog, hb]; simp [History.handed]
    rw [← hold]
    exact h.finished hfin

theorem Fed.work (h : Fed K x c) (hs : c.Sound) {w : WorkData} {ctx : VcdCtx σ}
    {calls : List Call} (hw : c.ctx.workReq = some w) (hd : c.ctx.workDone = false)
    (hp : c.ctx.processShim K w = .ok (ctx, calls)) :
    Fed K x (({ c with ctx } : Core σ).note (.work calls)) := by
  obtain ⟨ctx', rfl, hdone, htr⟩ := hs.worked hw hd hp
  obtain ⟨y, hy⟩ := Option.isSome_iff_exists.mp
    (hs.control.flags.coder (by rw [hs.control.flags.inProgress, hw]; rfl) : c.ctx.coder.isSome)
  obtain ⟨y', ht, hy'⟩ := h.trace
  obtain rfl := hy' y hy
  obtain ⟨z, hz, htz⟩ := VcdCtx.processShim_trace hy ht hp
  have hin : (({ c with ctx := { ctx' with workDone := true } } : Core σ).note
      (.work calls)).inFlightBuffers = [] := by
    simp [inFlightBuffers, note, hdone.workReq, hw]
  have hcalls : (({ c with ctx := { ctx' with workDone := true } } : Core σ).note
      (.work calls)).log.calls = c.log.calls ++ calls := rfl
  have hbuf : (({ c with ctx := { ctx' with workDone := true } } : Core σ).note
      (.work calls)).log.handedBuffers = c.log.handedBuffers := rfl
  have htrace : ∃ y, K.Trace x (c.log.calls ++ calls) y ∧
      ∀ z, ({ ctx' with workDone := true } : VcdCtx σ).coder = some z → z = y :=
    ⟨z, htz, fun z' hz' => Option.some.inj (hz'.symm.trans hz)⟩
  by_cases hstate : c.ctx.state = .done
  · -- the coder is not called any more
    obtain ⟨hnil, -⟩ := hdone.silent hstate
    have hstop : ctx'.state = .done := hdone.stopped.mpr (.inl hstate)
    refine ⟨htrace, ?_, fun hlive => absurd hstop hlive, ?_, ?_⟩
    · rw [hcalls, hbuf, hnil, List.append_nil]; exact h.isPrefix
    · rw [History.processed, hcalls, hnil, List.append_nil]; exact h.finished
    · rw [hcalls, hnil, List.append_nil]; exact h.fed
  · obtain ⟨hpre, hlive', hfin'⟩ := hdone.chunks hstate htr
    have hold : c.log.handedBuffers = Call.chunks c.log.calls ++ [w.data] := by
      rw [h.live hstate]
      simp [inFlightBuffers, hw, hd]
    have hnew : (∃ q ∈ c.log.calls ++ calls, q.isFinish = true) →
        Call.chunks calls = [w.data] := by
      rintro ⟨q, hq, hfin⟩
      rcases List.mem_append.mp hq with hq | hq
      · have := (hs.coded.tracks.live hstate q hq).1
        rw [hfin] at this; cases this
      · exact hfin' ⟨q, hq, hfin⟩
    refine ⟨htrace, ?_, fun hlive => ?_, fun hfin => ?_, fun hfin => ?_⟩
    · rw [hcalls, hbuf, hold, Coder.chunks_append]
      exact List.prefix_append_right_inj _ |>.mpr hpre
    · rw [hcalls, hbuf, hin, hold, Coder.chunks_append, hlive' hlive, List.append_nil]
    · rw [hcalls] at hfin
      rw [History.processed, hcalls, ← Coder.flatten_chunks, Coder.chunks_append, hnew hfin,
        ← hold, History.flatten_handedBuffers]
      rfl
    · rw [hcalls] at hfin ⊢
      rw [Coder.chunks_append, hnew hfin]
      simp

theorem Fed.step (h : Fed K x c) (hs : c.Sound) (hstep : c.Step K c') : Fed K x c' := by
  rcases hstep.feeding hs with ha | ⟨call, l, hc, rfl⟩ | ⟨w, ctx, calls, hw, hd, hp, rfl⟩
  · exact h.aloof ha
  · exact h.submit hs hc (hs.step hstep)
  · exact h.work hs hw hd hp

/-- The chunks still to be taken and those handed over are accepted ones, or concatenations. -/
structure Composed (P : Buffer → Prop) (c : Core σ) : Prop where
  waiting : ∀ req ∈ c.writing.toList ++ c.queue, P req.chunk
  buffers : ∀ d ∈ c.buffers, P d
  handed : ∀ b ∈ c.log.handedBuffers, ∃ ds : List Buffer, (∀ d ∈ ds, P d) ∧ b = ds.flatten

variable {P : Buffer → Prop}

theorem Composed.congr (h : Composed P c) (hw : c'.writing.toList ⊆ c.writing.toList)
    (hq : c'.queue = c.queue) (hb : c'.buffers = c.buffers) (new : History)
    (hlog : c'.log = new ++ c.log) (hn : ∀ l b, .nativeWrite l b ∉ new) : Composed P c' := by
  refine ⟨fun req hreq => h.waiting req ?_, hb ▸ h.buffers, ?_⟩
  · rw [hq, List.mem_append] at hreq
    exact List.mem_append.mpr (hreq.imp_left fun hr => hw hr)
  · rw [hlog, History.handedBuffers_append new hn]; exact h.handed

theorem Composed.close (h : Composed P c) : Composed P c.close := by
  unfold Core.close
  dsimp only
  split
  · exact h.congr (fun _ => id) rfl rfl [.close] rfl (by simp)
  · split
    · exact h.congr (fun _ => id) rfl rfl [.nativeClose, .close] rfl (by simp)
    · exact h.congr (fun _ => id) rfl rfl [.close] rfl (by simp)

theorem Composed.chunkOf (h : Composed P c) (h0 : P []) (call : Calling) :
    P (c.chunkOf call) := by
  cases call with
  | flush => exact h0
  | transform sync =>
    cases hw : c.writing with
    | none => simpa [Core.chunkOf, hw] using h0
    | some req => simpa [Core.chunkOf, hw] using h.waiting req (by simp [hw])

theorem Composed.call (h : Composed P c) (h0 : P []) (hs : c.Sound) {call : Calling}
    (hc : c.calling = some call) (forceFlush : Bool) :
    Composed P (c.runCalling call forceFlush) := by
  have hat := hs.control.called hc
  have hchunk := h.chunkOf h0 call
  have hbuf : ∀ d ∈ c.buffers ++ [c.chunkOf call], P d := by
    simpa [or_imp, forall_and] using ⟨h.buffers, hchunk⟩
  rw [runCalling_eq hat hs.control.flags]
  split
  · have hd := c.turnedDown call
    exact h.congr hd.writing hd.queue hd.buffers [.transformCb call.callback false] hd.log (by simp)
  · unfold running
    dsimp only
    split
    · have hdata : Engine.concat (c.buffers ++ [c.chunkOf call])
          (c.nread + (c.chunkOf call).length) = (c.buffers ++ [c.chunkOf call]).flatten :=
        concat_eq (by simp [hs.held.nread_eq])
      have hnew : ∀ d : Core σ, d.log.handedBuffers = c.log.handedBuffers ++
          [Engine.concat (c.buffers ++ [c.chunkOf call]) (c.nread + (c.chunkOf call).length)] →
          ∀ b ∈ d.log.handedBuffers, ∃ ds : List Buffer, (∀ d ∈ ds, P d) ∧ b = ds.flatten := by
        intro d hd b hb
        rw [hd, hdata, List.mem_append, List.mem_singleton] at hb
        rcases hb with hb | rfl
        · exact h.handed b hb
        · exact ⟨_, hbuf, rfl⟩
      cases call with
      | transform sync => exact ⟨h.waiting, by simp [submit], hnew _ rfl⟩
      | flush => exact ⟨h.waiting, by simp [submit], hnew _ rfl⟩
    · cases call with
      | transform sync => exact ⟨h.waiting, hbuf, h.handed⟩
      | flush => exact ⟨h.waiting, hbuf, h.handed⟩

theorem Composed.step (h : Composed P c) (h0 : P []) (hs : c.Sound) (hstep : c.Step K c')
    (hP : ∀ b, .accept b ∈ c'.log → P b) : Composed P c' := by
  cases hstep with
  | same | demand | ending | finish | workFail | afterCallback | afterOnerror =>
    exact h.congr (fun _ => id) rfl rfl [] rfl (by simp)
  | accept req wants =>
    have hlog : (c.accept req wants).log = .accept req.chunk :: c.log := by
      unfold Core.accept; dsimp only; split <;> rfl
    have hreq : P req.chunk := hP _ (by rw [hlog]; exact List.mem_cons_self)
    unfold Core.accept
    dsimp only
    split
    · refine ⟨fun r hr => ?_, h.buffers, h.handed⟩
      rw [← List.append_assoc, List.mem_append, List.mem_singleton] at hr
      rcases hr with hr | rfl
      · exact h.waiting r hr
      · exact hreq
    · refine ⟨fun r hr => ?_, h.buffers, h.handed⟩
      rcases List.mem_cons.mp hr with rfl | hr
      · exact hreq
      · exact h.waiting r (List.mem_append_right _ hr)
  | @next req rest wants _ hw hq =>
    refine ⟨fun r hr => h.waiting r ?_, h.buffers, h.handed⟩
    rw [hw, hq]
    exact hr
  | close => exact h.close
  | endEvent =>
    have hend : Composed P (c.note .endEvent) :=
      h.congr (fun _ => id) rfl rfl [.endEvent] rfl (by simp)
    exact hend.close
  | call forceFlush hc => exact h.call h0 hs hc forceFlush
  | settle k _ hk =>
    cases k with
    | afterTransform =>
      obtain ⟨req, hreq⟩ := Option.isSome_iff_exists.mp
        (hs.control.waits (k := .afterTransform) hk).2.2.2.2.2.2.2
      rw [settle_afterTransform hreq]
      exact h.congr (by simp) rfl rfl [_] rfl (by simp)
    | done =>
      rw [settle_done]
      exact h.congr (fun _ => id) rfl rfl [_] rfl (by simp)
  | work => exact h.congr (fun _ => id) rfl rfl [_] rfl (by simp)
  | report => exact h.congr (fun _ => id) rfl rfl [_] rfl (by simp)
  | @deliver k =>
    cases k <;> exact h.congr (fun _ => id) rfl rfl [.push c.ctx.outputBuffer] rfl (by simp)

end Core

end NodeVcdiff
