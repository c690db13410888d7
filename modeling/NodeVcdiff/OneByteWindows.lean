import NodeVcdiff.Construction
import NodeVcdiff.Trace

/-!
# One-byte windows

A small format with the interface of the library: the header of a delta file, and for every
byte of the target a window that adds it.
-/

namespace NodeVcdiff

namespace OneByteWindows

/-- Magic number, version, and no header options. -/
def header : Buffer := [0xD6, 0xC3, 0xC4, 0x00, 0x00]

/-- The window for `b`: its source segment, all of a dictionary of the given size; the length
of the rest; the target size; no compression; the section lengths; `b`; the instruction to add
one byte. -/
def window (size b : UInt8) : Buffer :=
  [0x01, size, 0x00, 0x07, 0x01, 0x00, 0x01, 0x01, 0x00, b, 0x02]

def encoder : EncoderLibrary UInt8 where
  create dictionary _ _ := UInt8.ofNat dictionary.length
  startEncodingToInterface size := (true, header, size)
  encodeChunkToInterface size data := (true, data.flatMap (window size), size)
  finishEncodingToInterface size := (true, [], size)

structure Decoder where
  fileLimit : ℕ := 2 ^ 26
  windowLimit : ℕ := 2 ^ 26
  position : ℕ := 0
  decoded : ℕ := 0

/-- A byte of the delta is passed over, or put out. -/
def Decoder.pass (x : Decoder) : Decoder := { x with position := x.position + 1 }
def Decoder.put (x : Decoder) : Decoder :=
  { x with position := x.position + 1, decoded := x.decoded + 1 }

/-- Whether the byte at a position of the delta belongs to the target. -/
def isTarget (position : ℕ) : Bool := decide (5 ≤ position ∧ (position - 5) % 11 = 9)

def decodeChunk (x : Decoder) : Buffer → Bool × Buffer × Decoder
  | [] => (true, [], x)
  | b :: rest =>
    if isTarget x.position then
      if x.decoded < x.fileLimit ∧ 0 < x.windowLimit then
        let r := decodeChunk x.put rest
        (r.1, b :: r.2.1, r.2.2)
      else (false, [], x)
    else decodeChunk x.pass rest

def setWindowLimit (x : Decoder) (n : ℕ) : Bool × Decoder :=
  if n < 2 ^ 31 then (true, { x with windowLimit := n }) else (false, x)

def decoder : DecoderLibrary Decoder where
  create := {}
  startDecoding x _ := x
  decodeChunkToInterface := decodeChunk
  finishDecoding x := (decide (5 ≤ x.position ∧ (x.position - 5) % 11 = 0), x)
  setAllowVcdTarget x _ := x
  setMaximumTargetFileSize x n := (true, { x with fileLimit := n })
  setMaximumTargetWindowSize := setWindowLimit
  maximumTargetFileSize := Decoder.fileLimit
  maximumTargetWindowSize := Decoder.windowLimit
  windows x := .replicate x.decoded 1

theorem setWindowLimit_keeps (x : Decoder) (n : ℕ) :
    (setWindowLimit x n).2.fileLimit = x.fileLimit ∧
    (setWindowLimit x n).2.position = x.position ∧
    (setWindowLimit x n).2.decoded = x.decoded := by
  unfold setWindowLimit
  split <;> exact ⟨rfl, rfl, rfl⟩

/-- The target bytes of a piece of the delta that starts at a position. -/
def target (position : ℕ) : Buffer → Buffer
  | [] => []
  | b :: rest =>
    if isTarget position then b :: target (position + 1) rest else target (position + 1) rest

theorem target_append (position : ℕ) (p q : Buffer) :
    target position (p ++ q) = target position p ++ target (position + p.length) q := by
  induction p generalizing position with
  | nil => rfl
  | cons b p ih =>
    have hpos : position + (b :: p).length = position + 1 + p.length := by
      rw [List.length_cons]; omega
    rw [List.cons_append, target, target, ih, hpos]
    split <;> rfl

/-- What a decoder becomes, puts out and requires. -/
theorem decodeChunk_spec (x : Decoder) (data : Buffer) :
    (decodeChunk x data).2.2.fileLimit = x.fileLimit ∧
    (decodeChunk x data).2.2.windowLimit = x.windowLimit ∧
    (decodeChunk x data).2.2.decoded = x.decoded + (decodeChunk x data).2.1.length ∧
    ((decodeChunk x data).2.1 ≠ [] →
      (decodeChunk x data).2.2.decoded ≤ x.fileLimit ∧ 0 < x.windowLimit) ∧
    ((decodeChunk x data).1 = true → (decodeChunk x data).2.1 = target x.position data ∧
      (decodeChunk x data).2.2.position = x.position + data.length) := by
  induction data generalizing x with
  | nil => exact ⟨rfl, rfl, rfl, fun h => absurd rfl h, fun _ => ⟨rfl, rfl⟩⟩
  | cons b data ih =>
    rw [decodeChunk, target]
    by_cases ht : isTarget x.position = true
    · by_cases hl : x.decoded < x.fileLimit ∧ 0 < x.windowLimit
      · obtain ⟨h1, h2, h3, h4, h5⟩ := ih x.put
        have hdecoded : x.put.decoded = x.decoded + 1 := rfl
        have hposition : x.put.position = x.position + 1 := rfl
        simp only [if_pos ht, if_pos hl]
        refine ⟨h1, h2, ?_, fun _ => ⟨?_, hl.2⟩, fun ha => ?_⟩
        · rw [h3, hdecoded, List.length_cons]; omega
        · by_cases hnil : (decodeChunk x.put data).2.1 = []
          · rw [h3, hnil]; exact hl.1
          · exact (h4 hnil).1
        · rw [(h5 ha).1, (h5 ha).2, hposition, List.length_cons]
          exact ⟨rfl, by omega⟩
      · simp only [if_pos ht, if_neg hl]
        exact ⟨trivial, trivial, rfl, fun h => absurd rfl h, fun h => by cases h⟩
    · obtain ⟨h1, h2, h3, h4, h5⟩ := ih x.pass
      have hposition : x.pass.position = x.position + 1 := rfl
      simp only [if_neg ht]
      refine ⟨h1, h2, h3, h4, fun ha => ?_⟩
      rw [(h5 ha).1, (h5 ha).2, hposition, List.length_cons]
      exact ⟨rfl, by omega⟩

/-- A decoder accepts what stays within its limits. -/
theorem decodeChunk_accepts {x : Decoder} {data : Buffer}
    (hfile : x.decoded + (target x.position data).length ≤ x.fileLimit) (hwin : 0 < x.windowLimit) :
    (decodeChunk x data).1 = true := by
  induction data generalizing x with
  | nil => rfl
  | cons b data ih =>
    rw [target] at hfile
    rw [decodeChunk]
    by_cases ht : isTarget x.position = true
    · rw [if_pos ht, List.length_cons] at hfile
      rw [if_pos ht, if_pos ⟨by omega, hwin⟩]
      refine ih ?_ hwin
      show x.decoded + 1 + (target (x.position + 1) data).length ≤ x.fileLimit
      omega
    · rw [if_neg ht] at hfile
      rw [if_neg ht]
      exact ih hfile hwin

/-- The account of a decoder that was `x` before the calls and is `y` now. -/
structure Account (x : Decoder) (calls : List Call) (y : Decoder) : Prop where
  fileLimit : y.fileLimit = x.fileLimit
  windowLimit : y.windowLimit = x.windowLimit
  decoded : y.decoded = x.decoded + (calls.flatMap Call.out).length
  within : calls.flatMap Call.out ≠ [] → y.decoded ≤ x.fileLimit ∧ 0 < x.windowLimit
  accepted : (∀ q ∈ calls, q.failed = false) →
    calls.flatMap Call.out = target x.position (Call.chunks calls).flatten ∧
      y.position = x.position + (Call.chunks calls).flatten.length

/-- A call that takes nothing in and puts nothing out. -/
theorem Account.idle {x y : Decoder} {calls : List Call} (h : Account x calls y) {p : Call}
    (hout : p.out = []) (hchunks : Call.chunks [p] = []) : Account x (calls ++ [p]) y := by
  have e1 : (calls ++ [p]).flatMap Call.out = calls.flatMap Call.out := by
    rw [List.flatMap_append, List.flatMap_singleton, hout, List.append_nil]
  have e2 : Call.chunks (calls ++ [p]) = Call.chunks calls := by
    rw [Coder.chunks_append, hchunks, List.append_nil]
  refine ⟨h.fileLimit, h.windowLimit, e1 ▸ h.decoded, e1 ▸ h.within, fun hall => ?_⟩
  rw [e1, e2]
  exact h.accepted fun q hq => hall q (List.mem_append_left _ hq)

theorem Account.process {x y : Decoder} {calls : List Call} (h : Account x calls y)
    (d : Buffer) (err : Error) (herr : err = .ok → (decodeChunk y d).1 = true) :
    Account x (calls ++ [.process d err (decodeChunk y d).2.1]) (decodeChunk y d).2.2 := by
  obtain ⟨d1, d2, d3, d4, d5⟩ := decodeChunk_spec y d
  have hout : (calls ++ [Call.process d err (decodeChunk y d).2.1]).flatMap Call.out =
      calls.flatMap Call.out ++ (decodeChunk y d).2.1 := by
    rw [List.flatMap_append, List.flatMap_singleton]
    rfl
  have hchunks : (Call.chunks (calls ++ [Call.process d err (decodeChunk y d).2.1])).flatten =
      (Call.chunks calls).flatten ++ d := by
    rw [Coder.chunks_append, List.flatten_append]
    simp [Call.chunks]
  refine ⟨d1.trans h.fileLimit, d2.trans h.windowLimit, ?_, fun hne => ?_, fun hall => ?_⟩
  · rw [d3, h.decoded, hout, List.length_append]
    omega
  · rw [hout] at hne
    by_cases hd : (decodeChunk y d).2.1 = []
    · rw [hd, List.append_nil] at hne
      rw [d3, hd]
      exact h.within hne
    · rw [← h.fileLimit, ← h.windowLimit]
      exact d4 hd
  · obtain ⟨e1, e2⟩ := h.accepted fun q hq => hall q (List.mem_append_left _ hq)
    have hlast : err = .ok :=
      Coder.failed_eq_false.mp (hall _ (List.mem_append_right calls (List.mem_singleton.mpr rfl)))
    obtain ⟨f1, f2⟩ := d5 (herr hlast)
    rw [hout, hchunks, f1, f2, e1, e2, target_append, List.length_append]
    exact ⟨rfl, by omega⟩

theorem account_of_trace {dictionary : Buffer} {x y : Decoder} {calls : List Call}
    (h : (vcdDecoder decoder.toStreamingDecoder dictionary).Trace x calls y) :
    Account x calls y := by
  induction h with
  | nil => exact ⟨rfl, rfl, rfl, fun h => absurd rfl h, fun _ => ⟨rfl, rfl⟩⟩
  | start _ ih | finish _ ih => exact ih.idle rfl rfl
  | process d _ ih =>
    refine ih.process d _ fun herr => ?_
    simpa [vcdDecoder, decoder] using herr

/-- The target of a delta of windows. -/
theorem target_windows (size : UInt8) (data : Buffer) {position : ℕ} (h5 : 5 ≤ position)
    (h : (position - 5) % 11 = 0) : target position (data.flatMap (window size)) = data := by
  induction data generalizing position with
  | nil => rfl
  | cons b data ih =>
    have hnext : target (position + 11) (data.flatMap (window size)) = data :=
      ih (by omega) (by omega)
    have hwin : target position (window size b) = [b] := by
      have hno : ∀ i, i < 11 → i ≠ 9 → isTarget (position + i) = false := fun i hi h9 => by
        simp only [isTarget, decide_eq_false_iff_not, not_and]
        omega
      have hyes : isTarget (position + 9) = true := by
        simp only [isTarget, decide_eq_true_eq]
        omega
      have h0 := hno 0 (by omega) (by omega)
      simp only [Nat.add_zero] at h0
      simp [window, target, Nat.add_assoc, h0, hno, hyes]
    rw [List.flatMap_cons, target_append, hwin]
    show b :: target (position + 11) _ = _
    rw [hnext]

theorem length_windows (size : UInt8) (data : Buffer) :
    (data.flatMap (window size)).length = 11 * data.length := by
  induction data with
  | nil => rfl
  | cons b data ih =>
    rw [List.flatMap_cons, List.length_append, ih, List.length_cons]
    show 11 + 11 * data.length = _
    omega

end OneByteWindows

end NodeVcdiff
