import NodeVcdiff.OneByteWindows
import NodeVcdiff.Outcome

/-!
# Numeric limits

What it means that a limit given to a constructor is in force and enforced, and for which
values that is so.
-/

namespace NodeVcdiff

open Script (Number)
open Transition (Reaches anyStep Inevitable)

variable {ε δ : Type}

/-! ## The limits of a decoder -/

/-- The two limits of a decoder. -/
inductive Limit where
  | targetFile
  | targetWindow
  deriving DecidableEq

namespace Limit

/-- Give the limit as an option. -/
def give (l : Limit) (n : ℤ) (opts : Options) : Options :=
  match l with
  | targetFile => { opts with maxTargetFileSize := some (.ofInt n) }
  | targetWindow => { opts with maxTargetWindowSize := some (.ofInt n) }

/-- The limit that a decoder has in force. -/
def inForce (l : Limit) (D : DecoderLibrary δ) (x : δ) : ℕ :=
  match l with
  | targetFile => D.maximumTargetFileSize x
  | targetWindow => D.maximumTargetWindowSize x

/-- The calls, which made the decoder `y`, keep within `n`: the bytes put out, or each target
window decoded. -/
def Within (l : Limit) (D : DecoderLibrary δ) (calls : List Call) (y : δ) (n : ℕ) : Prop :=
  match l with
  | targetFile => (calls.flatMap Call.out).length ≤ n
  | targetWindow => ∀ w ∈ D.windows y, w ≤ n

end Limit

namespace DecoderLibrary

variable (D : DecoderLibrary δ)

/-- The decoders that a user of the library can set up. -/
inductive Fresh : δ → Prop where
  | create : Fresh D.create
  | allowVcdTarget {x : δ} (b : Bool) : Fresh x → Fresh (D.setAllowVcdTarget x b)
  | maximumTargetFileSize {x : δ} (n : ℕ) : Fresh x → Fresh (D.setMaximumTargetFileSize x n).2
  | maximumTargetWindowSize {x : δ} (n : ℕ) :
      Fresh x → Fresh (D.setMaximumTargetWindowSize x n).2

/-- The decoder `x` accepts the whole of `input`, by these calls, and is `y` then. -/
structure Decodes (dictionary : Buffer) (x : δ) (input : Buffer) (calls : List Call) (y : δ) :
    Prop where
  trace : (vcdDecoder D.toStreamingDecoder dictionary).Trace x calls y
  protocol : Protocol calls
  succeeds : ∀ q ∈ calls, q.failed = false
  finishes : ∃ q ∈ calls, q.isFinish = true
  input : (Call.chunks calls).flatten = input

/-- What open-vcdiff documents about the limits of a decoder. -/
structure Documented : Prop where
  fileSize : ∀ x n, D.maximumTargetFileSize (D.setMaximumTargetFileSize x n).2 = n
  windowSize : ∀ x n, n < 2 ^ 31 → (D.setMaximumTargetWindowSize x n).1 = true ∧
    D.maximumTargetWindowSize (D.setMaximumTargetWindowSize x n).2 = n
  windowSize_refused : ∀ x n, 2 ^ 31 ≤ n → D.setMaximumTargetWindowSize x n = (false, x)
  fileSize_kept : ∀ x n, D.maximumTargetFileSize (D.setMaximumTargetWindowSize x n).2 =
    D.maximumTargetFileSize x
  /-- A limit is never exceeded. -/
  within : ∀ (l : Limit) dictionary x calls y, D.Fresh x →
    (vcdDecoder D.toStreamingDecoder dictionary).Trace x calls y → Protocol calls →
    l.Within D calls y (l.inForce D x)
  /-- What an input needs does not depend on the limits. -/
  within_congr : ∀ (l : Limit) dictionary x x' input calls calls' y y' n, D.Fresh x → D.Fresh x' →
    D.Decodes dictionary x input calls y → D.Decodes dictionary x' input calls' y' →
    l.Within D calls y n → l.Within D calls' y' n

/-- A decoder that decodes `input` does not keep within `n`. -/
def Exceeds (dictionary input : Buffer) (l : Limit) (n : ℕ) : Prop :=
  ∃ x calls y, D.Fresh x ∧ D.Decodes dictionary x input calls y ∧ ¬ l.Within D calls y n

variable {D} {dictionary : Buffer}

theorem fresh_newDecoder (allowVcdTarget : Bool) (file window : Number) :
    D.Fresh (VcdCtx.newDecoder D allowVcdTarget file window) :=
  .maximumTargetWindowSize _ (.maximumTargetFileSize _ (.allowVcdTarget _ .create))

end DecoderLibrary

namespace Limit

variable {D : DecoderLibrary δ} {dictionary : Buffer} {l : Limit} {n : ℕ} {x : δ}

/-- The stream `s` has the limit `n` in force and keeps within it, whatever is written to it;
and if it is ended on an input that needs more it comes to an error, not to 'end'. -/
structure Enforced (D : DecoderLibrary δ) (dictionary : Buffer) (l : Limit) (n : ℕ)
    (s : Engine δ) : Prop where
  inForce : ∃ x, s.ctx.coder = some x ∧ l.inForce D x = n
  kept : ∀ t, Reaches (Engine.step (vcdDecoder D.toStreamingDecoder dictionary)) anyStep s t →
    (l = targetFile → t.log.pushed.length ≤ n) ∧
    (l = targetWindow → ∀ y, t.ctx.coder = some y → ∀ w ∈ D.windows y, w ≤ n)
  rejects : ∀ t, Reaches (Engine.step (vcdDecoder D.toStreamingDecoder dictionary))
      (fun s a => a.inTime s) s t → t.log.ClosedAtEnd → t.ws.ending = true →
    D.Exceeds dictionary t.log.written l n →
    Inevitable (Engine.Progress (vcdDecoder D.toStreamingDecoder dictionary))
      (fun u => .endEvent ∉ u.log ∧ u.log.nativeErrors ≠ []) t

/-- A stream that has ended has decoded its input. -/
theorem decodes_of_ended {t : Engine δ} {mode : Mode} {m : Number} {h : ℤ}
    {ok : Engine δ → Engine.Act → Prop}
    (hr : Reaches (Engine.step (vcdDecoder D.toStreamingDecoder dictionary)) ok
      (.init mode m h x) t) (he : .endEvent ∈ t.log) :
    ∃ y, D.Decodes dictionary x t.log.written t.log.calls y := by
  have hi : t.Invariant := .reaches hr
  obtain ⟨y, ht, -⟩ := (Engine.fed_of_reaches hr).trace
  have hcalls : t.core.log.calls = t.log.calls := History.flow_calls
  obtain ⟨-, hf, hproc, -, o, ho⟩ := hi.at_end (hi.ended he)
  rw [hcalls] at ht
  refine ⟨y, ht, hcalls ▸ hi.sound.coded.tracks.protocol, ?_, ⟨_, ho, rfl⟩, ?_⟩
  · simpa [History.hasFailed] using hf
  · rw [Coder.flatten_chunks]
    exact hproc

/-- A decoder that was set up with a limit makes a stream that enforces it. -/
theorem enforced_init (hD : D.Documented) (hx : D.Fresh x) (hn : l.inForce D x = n) (mode : Mode)
    (m : Number) (h : ℤ) : l.Enforced D dictionary n (.init mode m h x) := by
  refine ⟨⟨x, rfl, hn⟩, fun t hr => ?_, fun t hr hc he hex => ?_⟩
  · obtain ⟨y, ht, hy⟩ := (Engine.fed_of_reaches hr).trace
    have hi : t.Invariant := .reaches hr
    have hwithin := hD.within l dictionary x _ y hx ht hi.sound.coded.tracks.protocol
    rw [hn] at hwithin
    refine ⟨?_, ?_⟩
    · rintro rfl
      have hcalls : t.core.log.calls = t.log.calls := History.flow_calls
      rw [hcalls] at hwithin
      exact hi.pushed_isPrefix.length_le.trans hwithin
    · rintro rfl z hz
      obtain rfl := hy z hz
      exact hwithin
  · refine (Engine.settles (fun _ _ h => h) hr hc he).imp fun u ⟨hru, _, hw, _, hset⟩ => ?_
    have hno : .endEvent ∉ u.log := fun hend => by
      obtain ⟨y, hdec⟩ := decodes_of_ended hru hend
      obtain ⟨x', calls, y', hx', hdec', hnot⟩ := hex
      have hwithin := hD.within l dictionary x _ y hx hdec.trace hdec.protocol
      rw [hn] at hwithin
      exact hnot (hD.within_congr l dictionary x x' _ _ _ _ _ n hx hx' hdec (hw ▸ hdec') hwithin)
    rcases hset with ⟨hend, -⟩ | ⟨-, herr⟩
    · exact absurd hend hno
    · exact ⟨hno, by rw [herr]; simp⟩

/-- Every decoder stream that can be made enforces the default limits, 64 MiB each. -/
theorem default_enforced (hD : D.Documented) {opts : Options} {s : Engine δ}
    (hs : createVcdiffDecoder D opts = .ok s) (l : Limit) :
    l.Enforced D dictionary (2 ^ 26) s := by
  rw [createVcdiffDecoder_eq_ok hs]
  refine enforced_init hD (DecoderLibrary.fresh_newDecoder _ _ _) ?_ _ _ _
  obtain ⟨hfile, hwindow⟩ := toUint32_default
  cases l with
  | targetFile =>
    show D.maximumTargetFileSize (VcdCtx.newDecoder _ _ _ _) = _
    rw [VcdCtx.newDecoder, hD.fileSize_kept, hD.fileSize, hfile]
  | targetWindow =>
    show D.maximumTargetWindowSize (VcdCtx.newDecoder _ _ _ _) = _
    rw [VcdCtx.newDecoder, hwindow]
    exact (hD.windowSize _ _ (by decide)).2

/-! ## What the options do -/

/-- The documented range. -/
def InRange (n : ℤ) : Prop := 1 ≤ n ∧ n ≤ 2 ^ 32 - 1

/-- What is promised for `n` as a limit: in the range it is accepted and enforced, and outside,
0 apart, the constructor throws. -/
def Met (D : DecoderLibrary δ) (dictionary : Buffer) (opts : Options) (l : Limit) (n : ℤ) : Prop :=
  (InRange n → ∃ s, createVcdiffDecoder D (l.give n { opts with dictionary := some dictionary }) =
    .ok s ∧ l.Enforced D dictionary n.toNat s) ∧
  (n ≠ 0 → ¬ InRange n →
    ∃ e, createVcdiffDecoder D (l.give n { opts with dictionary := some dictionary }) = .error e)

theorem throws (l : Limit) (opts : Options) {n : ℤ} (hn : n ≠ 0) :
    ∃ e, createVcdiffDecoder D (l.give n opts) = .error e := by
  have hv : (Number.ofInt n).truthy = true := by
    simpa [Number.ofInt, Number.truthy] using hn
  cases l with
  | targetFile => exact createVcdiffDecoder_throws hv (.inl rfl)
  | targetWindow => exact createVcdiffDecoder_throws hv (.inr rfl)

theorem met_iff (D : DecoderLibrary δ) (dictionary : Buffer) (opts : Options) (l : Limit) (n : ℤ) :
    l.Met D dictionary opts n ↔ ¬ InRange n := by
  constructor
  · rintro ⟨hin, -⟩ hr
    obtain ⟨s, hs, -⟩ := hin hr
    obtain ⟨e, he⟩ := l.throws (D := D) { opts with dictionary := some dictionary }
      (n := n) (by have := hr.1; omega)
    rw [he] at hs
    cases hs
  · exact fun hr => ⟨fun h => absurd h hr, fun hn _ => l.throws _ hn⟩

end Limit

/-! A small decoder has the documented properties. -/

theorem OneByteWindows.fresh_decoder {x : OneByteWindows.Decoder}
    (h : OneByteWindows.decoder.Fresh x) : x.position = 0 ∧ x.decoded = 0 := by
  induction h with
  | create => exact ⟨rfl, rfl⟩
  | allowVcdTarget _ _ ih | maximumTargetFileSize _ _ ih => exact ih
  | @maximumTargetWindowSize x n _ ih =>
    obtain ⟨-, hposition, hdecoded⟩ := OneByteWindows.setWindowLimit_keeps x n
    exact ⟨hposition.trans ih.1, hdecoded.trans ih.2⟩

theorem OneByteWindows.documented : OneByteWindows.decoder.Documented where
  fileSize _ _ := rfl
  windowSize x n hn := by
    show (setWindowLimit x n).1 = true ∧ (setWindowLimit x n).2.windowLimit = n
    rw [setWindowLimit, if_pos hn]
    exact ⟨rfl, rfl⟩
  windowSize_refused x n hn := if_neg (Nat.not_lt.mpr hn)
  fileSize_kept x n := (setWindowLimit_keeps x n).1
  within l dictionary x calls y hx ht _ := by
    have ha := account_of_trace ht
    have hd : y.decoded = (calls.flatMap Call.out).length := by
      rw [ha.decoded, (fresh_decoder hx).2, Nat.zero_add]
    by_cases hnil : calls.flatMap Call.out = []
    · cases l with
      | targetFile =>
        show (calls.flatMap Call.out).length ≤ _
        rw [hnil]
        exact Nat.zero_le _
      | targetWindow =>
        intro w hw
        have hzero : y.decoded = 0 := by rw [hd, hnil]; rfl
        have hmem : w ∈ List.replicate y.decoded 1 := hw
        rw [hzero] at hmem
        cases hmem
    · obtain ⟨hfile, hwindow⟩ := ha.within hnil
      cases l with
      | targetFile =>
        rw [hd] at hfile
        exact hfile
      | targetWindow =>
        intro w hw
        rw [List.eq_of_mem_replicate hw]
        exact hwindow
  within_congr l dictionary x x' input calls calls' y y' n hx hx' h h' := by
    have ha := account_of_trace h.trace
    have ha' := account_of_trace h'.trace
    have hout : calls.flatMap Call.out = calls'.flatMap Call.out := by
      rw [(ha.accepted h.succeeds).1, (ha'.accepted h'.succeeds).1, h.input, h'.input,
        (fresh_decoder hx).1, (fresh_decoder hx').1]
    have hd : y.decoded = y'.decoded := by
      rw [ha.decoded, ha'.decoded, hout, (fresh_decoder hx).2, (fresh_decoder hx').2]
    have hwindows : decoder.windows y = decoder.windows y' :=
      congrArg (List.replicate · 1) hd
    cases l with
    | targetFile =>
      show (calls.flatMap Call.out).length ≤ n → (calls'.flatMap Call.out).length ≤ n
      rw [hout]
      exact id
    | targetWindow =>
      show (∀ w ∈ decoder.windows y, w ≤ n) → ∀ w ∈ decoder.windows y', w ≤ n
      rw [hwindows]
      exact id

/-! ## The encode window -/

/-- The option that is checked in place of `minEncodeWindowSize` is below the minimum. -/
def Options.NarrowWindow (opts : Options) : Prop :=
  ∃ w, opts.encodeWindowSize = some w ∧ w.truthy = true ∧ w.lt MIN_MIN_ENCODE_WINDOW_SIZE = true

theorem checkEncodeWindowSize_eq_ok_iff {opts : Options} :
    checkEncodeWindowSize opts = .ok () ↔ ¬ opts.NarrowWindow := by
  rw [checkEncodeWindowSize, checkRange_eq_ok_iff]
  have hmax : ∀ w : Number, MAX_MIN_ENCODE_WINDOW_SIZE.lt w = false := fun w => by cases w <;> rfl
  simp only [hmax, and_true, Options.NarrowWindow, not_exists, not_and, Bool.not_eq_true]

/-- What is promised for `v` as `minEncodeWindowSize`: below 64, and only then, the constructor
throws; otherwise `v` is the window in force. -/
def EncodeWindowMet (E : EncoderLibrary ε) (hashedDictionary : Buffer) (opts : Options)
    (v : Number) : Prop :=
  let made := createVcdiffEncoder E
    { opts with hashedDictionary := some hashedDictionary, minEncodeWindowSize := some v }
  v ≠ .ofInt 0 → ((∃ e, made = .error e) ↔ v.lt (.ofInt 64) = true) ∧
    (v.lt (.ofInt 64) = false → ∃ s, made = .ok s ∧ s.vcd.minEncodeWindowSize = v)

theorem encodeWindowMet_iff (E : EncoderLibrary ε) (hashedDictionary : Buffer) (opts : Options)
    (v : Number) : EncodeWindowMet E hashedDictionary opts v ↔
      v = .ofInt 0 ∨ (v.lt (.ofInt 64) = true ∧ opts.NarrowWindow) ∨
        (v ≠ .nan ∧ v.lt (.ofInt 64) = false ∧ ¬ opts.NarrowWindow) := by
  set opts' : Options :=
    { opts with hashedDictionary := some hashedDictionary, minEncodeWindowSize := some v } with ho
  have hd : opts'.hashedDictionary = some hashedDictionary := rfl
  have hcheck : checkEncodeWindowSize opts' = checkEncodeWindowSize opts := rfl
  by_cases hv : v = .ofInt 0
  · exact iff_of_true (fun hne => absurd hv hne) (.inl hv)
  by_cases hn : opts.NarrowWindow
  · obtain ⟨e, he⟩ : ∃ e, checkEncodeWindowSize opts' = .error e := by
      cases hc : checkEncodeWindowSize opts' with
      | error e => exact ⟨e, rfl⟩
      | ok u => exact absurd hn (checkEncodeWindowSize_eq_ok_iff.mp (hcheck ▸ hc))
    have hmade : createVcdiffEncoder E opts' = .error e := createVcdiffEncoder_error hd he
    simp [EncodeWindowMet, ← ho, hmade, hv, hn]
  · have hmade := createVcdiffEncoder_ok (E := E) hd
      (hcheck.trans (checkEncodeWindowSize_eq_ok_iff.mpr hn))
    have hwindow : minEncodeWindowSizeOf (some v) = v ↔ v ≠ .nan := by
      refine ⟨fun h => h ▸ minEncodeWindowSizeOf_ne_nan _, fun hnan => ?_⟩
      have htruthy : v.truthy = true := by
        cases v with
        | nan => exact absurd rfl hnan
        | negInf | posInf => rfl
        | fin q => simpa [Number.truthy, Number.ofInt] using hv
      simp [minEncodeWindowSizeOf, Number.orElse, htruthy]
    have hwin : opts'.minEncodeWindowSize = some v := rfl
    cases hlt : v.lt (.ofInt 64) <;>
      simp [EncodeWindowMet, ← ho, hmade, hv, hn, hlt, hwin, Engine.init, hwindow]

/-- The promises are kept for the limits outside the documented range, which are refused as all
are, and for encode windows that are wrong together with the option checked in their place, or
right together with it. -/
theorem limits_met_iff (D : DecoderLibrary δ) (E : EncoderLibrary ε) (dictionary : Buffer)
    (opts : Options) :
    (∀ (l : Limit) (n : ℤ), l.Met D dictionary opts n ↔ ¬ Limit.InRange n) ∧
    ∀ v, EncodeWindowMet E dictionary opts v ↔
      v = .ofInt 0 ∨ (v.lt (.ofInt 64) = true ∧ opts.NarrowWindow) ∨
        (v ≠ .nan ∧ v.lt (.ofInt 64) = false ∧ ¬ opts.NarrowWindow) :=
  ⟨fun l n => l.met_iff D dictionary opts n, encodeWindowMet_iff E dictionary opts⟩

/-- A limit of 1000 bytes is refused, an encode window of 16 bytes is accepted. -/
theorem limits_not_met :
    ¬ Limit.targetFile.Met OneByteWindows.decoder [] {} 1000 ∧
    ¬ Limit.targetWindow.Met OneByteWindows.decoder [] {} 1000 ∧
    ¬ EncodeWindowMet OneByteWindows.encoder [] {} (.ofInt 16) := by
  have hrange : Limit.InRange 1000 := ⟨by decide, by decide⟩
  refine ⟨fun h => ?_, fun h => ?_, fun h => ?_⟩
  · exact (Limit.met_iff _ _ _ _ _).mp h hrange
  · exact (Limit.met_iff _ _ _ _ _).mp h hrange
  · have hlt : (Number.ofInt 16).lt (.ofInt 64) = true := by decide
    obtain ⟨-, hthrows⟩ := (h (by decide)).1
    obtain ⟨e, he⟩ := hthrows hlt
    cases he

end NodeVcdiff
