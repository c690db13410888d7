import NodeVcdiff.OneByteWindows
import NodeVcdiff.OneShotReturn

/-!
# Round trips

What open-vcdiff guarantees for one pass over a list of chunks holds of the streams and of the
one-shot functions, however they cut the data.
-/

namespace NodeVcdiff

open Script (Number)
open Transition (Reaches anyStep Inevitable)

/-! ## One pass over a list of chunks -/

section Library

variable {ε δ τ : Type}

/-- A verdict with bytes and a state as a transducer gives it. -/
def accepted (r : Bool × Buffer × τ) : Except Unit (Buffer × τ) :=
  if r.1 then .ok r.2 else .error ()

/-- The encoder itself, each of its verdicts heeded. -/
def StreamingEncoder.machine (E : StreamingEncoder ε) :
    Transducer.Machine ε Buffer UInt8 Unit where
  start x := accepted (E.startEncodingToInterface x)
  feed x d := accepted (E.encodeChunkToInterface x d)
  finish x := accepted (E.finishEncodingToInterface x)

/-- The decoder itself on a dictionary. -/
def StreamingDecoder.machine (D : StreamingDecoder δ) (dictionary : Buffer) :
    Transducer.Machine δ Buffer UInt8 Unit where
  start x := .ok ([], D.startDecoding x dictionary)
  feed x d := accepted (D.decodeChunkToInterface x d)
  finish x := accepted ((D.finishDecoding x).1, [], (D.finishDecoding x).2)

/-- A decoder whose two limits were set to 64 MiB. -/
def DecoderLibrary.limited (D : DecoderLibrary δ) : δ :=
  let decoder := D.setAllowVcdTarget D.create true
  let decoder := (D.setMaximumTargetFileSize decoder (2 ^ 26)).2
  (D.setMaximumTargetWindowSize decoder (2 ^ 26)).2

/-- What is assumed of the library: an encoder that does not write JSON turns any list of
chunks into a delta, from which a decoder, fed any partition of it, recovers the data. -/
def RoundTrips (E : EncoderLibrary ε) (D : DecoderLibrary δ) : Prop :=
  ∀ (dictionary : Buffer) (flags : ℕ) (targetMatches : Bool) (chunks : List Buffer),
    flags < VCD_FORMAT_JSON → chunks.flatten.length ≤ 2 ^ 26 →
    ∃ delta, E.machine.run (E.create dictionary flags targetMatches) chunks = .ok delta ∧
      ∀ pieces : List Buffer, pieces.flatten = delta →
        (D.toStreamingDecoder.machine dictionary).run D.limited pieces = .ok chunks.flatten

theorem accepted_ok {r : Bool × Buffer × τ} {p : Buffer × τ} (h : accepted r = .ok p) :
    r = (true, p) := by
  obtain ⟨b, q⟩ := r
  cases b with
  | true => rw [show p = q from (Except.ok.inj h).symm]
  | false => cases h

/-- `VcdEncoder` succeeds where the encoder does. -/
theorem machine_within_vcdEncoder (E : StreamingEncoder ε) :
    E.machine.Within (vcdEncoder E).machine where
  start x p h := by
    have hr := accepted_ok h
    simp [Coder.machine, vcdEncoder, Answer.toExcept, hr]
  feed x d p h := by
    have hr := accepted_ok h
    simp [Coder.machine, vcdEncoder, Answer.toExcept, hr]
  finish x p h := by
    have hr := accepted_ok h
    simp [Coder.machine, vcdEncoder, Answer.toExcept, hr]

/-- `VcdDecoder` succeeds where the decoder does. -/
theorem machine_within_vcdDecoder (D : StreamingDecoder δ) (dictionary : Buffer) :
    (D.machine dictionary).Within (vcdDecoder D dictionary).machine where
  start x p h := by
    obtain rfl := Except.ok.inj h
    rfl
  feed x d p h := by
    have hr := accepted_ok h
    simp [Coder.machine, vcdDecoder, Answer.toExcept, hr]
  finish x p h := by
    have hr := accepted_ok h
    obtain ⟨hb, rfl⟩ := Prod.mk.inj hr
    simp [Coder.machine, vcdDecoder, Answer.toExcept, hb]

/-- The defaults are the limits of 64 MiB. -/
theorem newDecoder_default (D : DecoderLibrary δ) :
    VcdCtx.newDecoder D true (.ofInt DEFAULT_MAX_TARGET_FILE_SIZE)
      (.ofInt DEFAULT_MAX_TARGET_WINDOW_SIZE) = D.limited := by
  obtain ⟨hfile, hwindow⟩ := toUint32_default
  rw [VcdCtx.newDecoder, hfile, hwindow, DecoderLibrary.limited]

/-- The flags reach the encoder as they are. -/
theorem toUint32_formatExtensions (opts : Options) :
    Script.toUint32 (.ofInt (formatExtensions opts)) = formatExtensions opts := by
  unfold formatExtensions
  cases opts.interleaved <;> cases opts.checksum <;> cases opts.json <;> decide +kernel

end Library

/-! ## Every way through an engine -/

section Engines

variable {σ : Type*} {K : Coder σ} {x : σ} {d : Buffer} {P : Buffer → Prop} {mode : Mode}
  {m : Number} {h : ℤ}

/-- Whatever way `input` takes through the engine, written to it as a stream in any chunks with
flushes in between, or passed to the synchronous or the asynchronous function, it comes out
without an error, as bytes of which `P` holds. -/
structure Yields (K : Coder σ) (engine : Engine σ) (input : Buffer) (P : Buffer → Prop) :
    Prop where
  stream : ∀ s, Reaches (Engine.step K) (fun s a => a.inTime s) engine s → s.log.ClosedAtEnd →
    s.ws.ending = true → s.log.written = input →
    Inevitable (Engine.Progress K)
      (fun t => .endEvent ∈ t.log ∧ (∀ e, .error e ∉ t.log) ∧ P t.log.pushed) s
  ended : ∀ s, Reaches (Engine.step K) (fun s a => a.inTime s) engine s →
    .endEvent ∈ s.log → s.log.written = input → (∀ e, .error e ∉ s.log) ∧ P s.log.pushed
  sync : ∀ i : Input, i.bytes = input →
    ∃ out, (vcdiffBufferSync K engine i).2.result = some (.ok out) ∧ P out
  async : ∀ i : Input, i.bytes = input →
    ∀ w, Reaches (VcdiffBuffer.step K) anyStep (vcdiffBuffer engine i) w →
    (w.results = [] ∨ ∃ out, w.results = [.ok out] ∧ P out) ∧
      Inevitable (VcdiffBuffer.Progress K) (fun w => ∃ out, w.results = [.ok out] ∧ P out) w

variable (hK : ∀ bs : List Buffer, bs.flatten = d → ∃ out, K.run x bs = .ok out ∧ P out)

include hK in
theorem pushed_of_ended {s : Engine σ} {ok : Engine σ → Engine.Act → Prop}
    (hr : Reaches (Engine.step K) ok (.init mode m h x) s) (hw : s.log.written = d)
    (he : .endEvent ∈ s.log) : P s.log.pushed := by
  obtain ⟨hrun, hflat⟩ := Engine.run_of_ended hr he
  obtain ⟨out, hout, hP⟩ := hK _ (hflat.trans hw)
  rw [hrun] at hout
  exact Except.ok.inj hout ▸ hP

include hK in
/-- The coder that accepts its input however it is cut does not fail. -/
theorem not_failed {s : Engine σ} {ok : Engine σ → Engine.Act → Prop}
    (hr : Reaches (Engine.step K) ok (.init mode m h x) s) (hc : s.log.ClosedAtEnd)
    (hw : s.log.written = d) : s.log.hasFailed = false := by
  by_contra hf
  have href := (Engine.Invariant.reaches hr).not_refused hc
  obtain ⟨rest, hrun, hflat, -⟩ := Engine.run_of_failed hr href (by simpa using hf)
  obtain ⟨out, hout, -⟩ := hK _ (hflat.trans hw)
  rw [hrun] at hout
  cases hout

include hK in
/-- What a coder does with its input however it is cut, an engine does with it. -/
theorem yields : Yields K (.init mode m h x) d P where
  stream s hr hc he hw := by
    refine (Engine.settles (fun _ _ h => h) hr hc he).imp fun t ⟨hrt, _, hwt, hct, hset⟩ => ?_
    rcases hset with ⟨hend, hno⟩ | ⟨hf, -⟩
    · exact ⟨hend, hno, pushed_of_ended hK hrt (hwt.trans hw) hend⟩
    · rw [not_failed hK hrt hct (hwt.trans hw)] at hf
      cases hf
  ended s hr he hw := by
    have hi : s.Invariant := .reaches hr
    obtain ⟨href, hf, -⟩ := hi.at_end (hi.ended he)
    exact ⟨hi.no_error hf href (Engine.raises_of_reaches (fun _ _ h => h) hr),
      pushed_of_ended hK hr hw he⟩
  sync i hi := by
    obtain ⟨out, hout, hP⟩ := hK [i.bytes] (List.flatten_singleton.trans hi)
    refine ⟨out, ?_, hP⟩
    rw [sync_eq_run, hout]
    rfl
  async i hi w hw := by
    have hgood : VcdiffBuffer.Good K x mode m h i.bytes [] w := by
      induction hw with
      | refl => exact .start ⟨rfl, rfl⟩ rfl ⟨rfl, rfl⟩ (.inl rfl)
      | tail _ _ hs ih => exact ih.step hs
    have hcome : ∀ w, VcdiffBuffer.Good K x mode m h i.bytes [] w → w.Ended [] ∨ w.Failed [] →
        ∃ out, w.results = [.ok out] ∧ P out := by
      rintro w hg (⟨hres, hend, -⟩ | ⟨err, -, -, -, hf⟩)
      · have hw := (hg.written_of_ended hend).trans hi
        exact ⟨_, hres, pushed_of_ended hK hg.reach hw hend⟩
      · have hw := (hg.written_of_failed hf).trans hi
        rw [not_failed hK hg.reach hg.closed hw] at hf
        cases hf
    refine ⟨hgood.results.imp And.left (hcome w hgood), ?_⟩
    exact hgood.comes_back.imp fun w ⟨hg, hr⟩ => hcome w hg hr

end Engines

/-! ## There and back again -/

variable {ε δ : Type} {E : EncoderLibrary ε} {D : DecoderLibrary δ}

/-- Encoded in any way and decoded in any way, data of at most 64 MiB comes back. -/
theorem round_trip (hlib : RoundTrips E D) (dictionary data : Buffer)
    (hdata : data.length ≤ 2 ^ 26) (interleaved checksum targetMatches : Bool)
    (window mark window' mark' : Option Number) : ∃ encoder decoder,
      createVcdiffEncoder E
        { hashedDictionary := some dictionary, minEncodeWindowSize := window, interleaved, checksum,
          targetMatches, highWaterMark := mark } = .ok encoder ∧
      createVcdiffDecoder D
        { dictionary := some dictionary, minEncodeWindowSize := window', highWaterMark := mark' } =
          .ok decoder ∧
      Yields (vcdEncoder E.toStreamingEncoder) encoder data fun delta =>
        Yields (vcdDecoder D.toStreamingDecoder dictionary) decoder delta fun out => out = data := by
  set opts : Options :=
    { hashedDictionary := some dictionary, minEncodeWindowSize := window, interleaved, checksum,
      targetMatches, highWaterMark := mark } with hopts
  refine ⟨_, _, createVcdiffEncoder_ok rfl rfl, createVcdiffDecoder_ok rfl rfl rfl, ?_⟩
  refine yields fun chunks hchunks => ?_
  -- the library's promise about the chunks that the encoder gets to see
  have hflags : formatExtensions opts < VCD_FORMAT_JSON := formatExtensions_lt rfl
  obtain ⟨delta, hdelta, hback⟩ := hlib dictionary (formatExtensions opts) targetMatches chunks
    hflags (hchunks ▸ hdata)
  refine ⟨delta, ?_, yields fun pieces hpieces => ⟨data, ?_, rfl⟩⟩
  · rw [VcdCtx.newEncoder, toUint32_formatExtensions]
    exact (machine_within_vcdEncoder _).run hdelta
  · rw [newDecoder_default, ← hchunks]
    exact (machine_within_vcdDecoder _ _).run (hback pieces hpieces)

/-! A format of one-byte windows makes the round trip. -/

namespace OneByteWindows

theorem encoder_run (size : UInt8) (chunks : List Buffer) :
    encoder.machine.run size chunks = .ok (header ++ chunks.flatten.flatMap (window size)) := by
  have hfrom : encoder.machine.runFrom size chunks =
      .ok (chunks.flatten.flatMap (window size)) := by
    induction chunks with
    | nil => rfl
    | cons d chunks ih =>
      rw [Transducer.Machine.runFrom_of_feed (o := d.flatMap (window size)) (y := size) rfl, ih,
        List.flatten_cons, List.flatMap_append]
      rfl
  rw [Transducer.Machine.run_of_start (o := header) (y := size) rfl, hfrom]
  rfl

/-- A decoder puts out the target of what is left of a delta. -/
theorem decoder_runFrom (dictionary : Buffer) {x : Decoder} {pieces : List Buffer}
    (hfile : x.decoded + (target x.position pieces.flatten).length ≤ x.fileLimit)
    (hwin : 0 < x.windowLimit) (h5 : 5 ≤ x.position + pieces.flatten.length)
    (h11 : (x.position + pieces.flatten.length - 5) % 11 = 0) :
    (decoder.toStreamingDecoder.machine dictionary).runFrom x pieces =
      .ok (target x.position pieces.flatten) := by
  induction pieces generalizing x with
  | nil =>
    have hdone : 5 ≤ x.position ∧ (x.position - 5) % 11 = 0 := ⟨h5, h11⟩
    simp [Transducer.Machine.runFrom, StreamingDecoder.machine, decoder, accepted, hdone, target,
      Except.map]
  | cons d pieces ih =>
    rw [List.flatten_cons, target_append, List.length_append] at hfile
    rw [List.flatten_cons, List.length_append] at h5 h11
    obtain ⟨e1, e2, e3, -, e5⟩ := decodeChunk_spec x d
    have hok : (decodeChunk x d).1 = true := decodeChunk_accepts (by omega) hwin
    obtain ⟨hout, hpos⟩ := e5 hok
    have hfeed : (decoder.toStreamingDecoder.machine dictionary).feed x d =
        .ok ((decodeChunk x d).2.1, (decodeChunk x d).2.2) := by
      simp [StreamingDecoder.machine, decoder, accepted, hok]
    rw [Transducer.Machine.runFrom_of_feed hfeed, ih, hpos, hout, List.flatten_cons, target_append]
    · rfl
    · rw [e1, e3, hpos, hout]; omega
    · rw [e2]; exact hwin
    · rw [hpos]; omega
    · rw [hpos, Nat.add_assoc]; exact h11

theorem roundTrips : RoundTrips encoder decoder := by
  intro dictionary flags targetMatches chunks _ hlen
  set size := UInt8.ofNat dictionary.length
  refine ⟨_, encoder_run size chunks, fun pieces hpieces => ?_⟩
  have htarget : target 0 pieces.flatten = chunks.flatten := by
    have hheader : target 0 header = [] := by decide
    rw [hpieces, target_append, hheader, List.nil_append]
    exact target_windows size _ (by decide) (by decide)
  have hpos : pieces.flatten.length = 5 + 11 * chunks.flatten.length := by
    rw [hpieces, List.length_append, length_windows]
    rfl
  have hlimited : decoder.limited = ⟨2 ^ 26, 2 ^ 26, 0, 0⟩ := by
    simp [DecoderLibrary.limited, decoder, setWindowLimit]
  have hrun : (decoder.toStreamingDecoder.machine dictionary).runFrom decoder.limited pieces =
      .ok chunks.flatten := by
    rw [← htarget, hlimited]
    apply decoder_runFrom
    · show 0 + (target 0 pieces.flatten).length ≤ 2 ^ 26
      rw [htarget]
      omega
    · show 0 < 2 ^ 26
      decide
    · show 5 ≤ 0 + pieces.flatten.length
      omega
    · show (0 + pieces.flatten.length - 5) % 11 = 0
      omega
  rw [Transducer.Machine.run_of_start (o := []) (y := decoder.limited) rfl, hrun]
  rfl

end OneByteWindows

/-- One byte goes through the synchronous encoder, and the delta, in two pieces with a flush
between them, through a decoder stream. -/
theorem round_trip_one_byte : ∃ encoder decoder delta,
    createVcdiffEncoder OneByteWindows.encoder
      { hashedDictionary := some (.replicate 16 0x61) } = .ok encoder ∧
    createVcdiffDecoder OneByteWindows.decoder
      { dictionary := some (.replicate 16 0x61) } = .ok decoder ∧
    (vcdiffBufferSync (vcdEncoder OneByteWindows.encoder.toStreamingEncoder) encoder
      (.buffer [7])).2.result = some (.ok delta) ∧
    delta = OneByteWindows.header ++ OneByteWindows.window 16 7 ∧
    ∃ s, Reaches (Engine.step (vcdDecoder OneByteWindows.decoder.toStreamingDecoder
        (.replicate 16 0x61))) (fun s a => a.inTime s) decoder s ∧
      s.log.written = delta ∧ .flush 0 ∈ s.log ∧
      Inevitable (Engine.Progress (vcdDecoder OneByteWindows.decoder.toStreamingDecoder
        (.replicate 16 0x61))) (fun t => .endEvent ∈ t.log ∧ t.log.pushed = [7]) s := by
  obtain ⟨encoder, decoder, he, hd, hyields⟩ := round_trip OneByteWindows.roundTrips
    (.replicate 16 0x61) [7] (by decide) false false false none none none none
  obtain ⟨delta, hsync, hback⟩ := hyields.sync (.buffer [7]) rfl
  obtain rfl := Except.ok.inj (he.symm.trans (createVcdiffEncoder_ok rfl rfl))
  obtain rfl := Except.ok.inj (hd.symm.trans (createVcdiffDecoder_ok rfl rfl rfl))
  have hdelta : delta = OneByteWindows.header ++ OneByteWindows.window 16 7 := by
    rw [sync_eq_run] at hsync
    exact (Except.ok.inj (Option.some.inj hsync)).symm
  have hrun : ∃ s, Reaches (Engine.step (vcdDecoder OneByteWindows.decoder.toStreamingDecoder
        (.replicate 16 0x61))) (fun s a => a.inTime s)
      (.init .decode (minEncodeWindowSizeOf none) (highWaterMarkOf none)
        (VcdCtx.newDecoder OneByteWindows.decoder true (.ofInt DEFAULT_MAX_TARGET_FILE_SIZE)
          (.ofInt DEFAULT_MAX_TARGET_WINDOW_SIZE))) s ∧ s.log.ClosedAtEnd ∧ s.ws.ending = true ∧
        s.log.written = OneByteWindows.header ++ OneByteWindows.window 16 7 ∧ .flush 0 ∈ s.log :=
    Transition.exists_reaches [.write OneByteWindows.header, .run, .flush true,
      .write (OneByteWindows.window 16 7), .endWritable] (by decide +kernel)
  obtain ⟨s, hs, hc, hending, hw, hf⟩ := hrun
  have hstream := hback.stream s hs hc hending (hw.trans hdelta.symm)
  exact ⟨_, _, delta, he, hd, hsync, hdelta, s, hs, hw.trans hdelta.symm, hf,
    hstream.imp fun t ⟨hend, _, hout⟩ => ⟨hend, hout⟩⟩

end NodeVcdiff
