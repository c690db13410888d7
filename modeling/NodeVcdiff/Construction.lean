import NodeVcdiff.Engine
import NodeVcdiff.Options

/-!
# Construction

The part of open-vcdiff that sets coders up, `VcdCtx::New`, and the constructors of
`vcdiff.js`.
-/

namespace NodeVcdiff

open Script (Number)

/-- `open_vcdiff::VCDiffStreamingEncoder`: made from a dictionary, format flags and
`look_for_target_matches`. -/
structure EncoderLibrary (ε : Type) extends StreamingEncoder ε where
  create : Buffer → ℕ → Bool → ε

/-- `open_vcdiff::VCDiffStreamingDecoder` with its setters. The last three fields are what a
decoder is seen to do: its limits, and the sizes of the target windows it has decoded. -/
structure DecoderLibrary (δ : Type) extends StreamingDecoder δ where
  create : δ
  setAllowVcdTarget : δ → Bool → δ
  setMaximumTargetFileSize : δ → ℕ → Bool × δ
  setMaximumTargetWindowSize : δ → ℕ → Bool × δ
  maximumTargetFileSize : δ → ℕ
  maximumTargetWindowSize : δ → ℕ
  windows : δ → List ℕ

variable {ε δ : Type}

/-- `VcdCtx::New` in `ENCODE` mode. -/
def VcdCtx.newEncoder (E : EncoderLibrary ε) (hashedDictionary : Buffer) (targetMatches : Bool)
    (flags : Number) : ε :=
  E.create hashedDictionary (Script.toUint32 flags) targetMatches

/-- `VcdCtx::New` in `DECODE` mode. What the setters return is dropped. -/
def VcdCtx.newDecoder (D : DecoderLibrary δ) (allowVcdTarget : Bool)
    (maxTargetFileSize maxTargetWindowSize : Number) : δ :=
  let decoder := D.setAllowVcdTarget D.create allowVcdTarget
  let decoder := (D.setMaximumTargetFileSize decoder (Script.toUint32 maxTargetFileSize)).2
  (D.setMaximumTargetWindowSize decoder (Script.toUint32 maxTargetWindowSize)).2

/-- `new VcdiffEncoder(opts)`. -/
def createVcdiffEncoder (E : EncoderLibrary ε) (opts : Options) :
    Except OptionError (Engine ε) :=
  match opts.hashedDictionary with
  | none => .error ⟨"Must provide HashedDictionary", none⟩
  | some hashedDictionary => do
    let flags := formatExtensions opts
    checkEncodeWindowSize opts
    return .init .encode (minEncodeWindowSizeOf opts.minEncodeWindowSize)
      (highWaterMarkOf opts.highWaterMark)
      (VcdCtx.newEncoder E hashedDictionary opts.targetMatches (.ofInt flags))

/-- `new VcdiffDecoder(opts)`. The two limits are checked, and the defaults are passed on. -/
def createVcdiffDecoder (D : DecoderLibrary δ) (opts : Options) :
    Except OptionError (Engine δ) :=
  match opts.dictionary with
  | none => .error ⟨"Invalid dictionary: it should be a Buffer instance", none⟩
  | some _ => do
    let maxTargetFileSize := DEFAULT_MAX_TARGET_FILE_SIZE
    let maxTargetWindowSize := DEFAULT_MAX_TARGET_WINDOW_SIZE
    checkMaxTargetFileSize opts
    checkMaxTargetWindowSize opts
    return .init .decode (minEncodeWindowSizeOf opts.minEncodeWindowSize)
      (highWaterMarkOf opts.highWaterMark)
      (VcdCtx.newDecoder D opts.allowVcdTarget (.ofInt maxTargetFileSize)
        (.ofInt maxTargetWindowSize))

variable {E : EncoderLibrary ε} {D : DecoderLibrary δ} {opts : Options} {dictionary : Buffer}

theorem createVcdiffEncoder_ok (hd : opts.hashedDictionary = some dictionary)
    (hc : checkEncodeWindowSize opts = .ok ()) : createVcdiffEncoder E opts =
      .ok (.init .encode (minEncodeWindowSizeOf opts.minEncodeWindowSize)
        (highWaterMarkOf opts.highWaterMark)
        (VcdCtx.newEncoder E dictionary opts.targetMatches (.ofInt (formatExtensions opts)))) := by
  unfold createVcdiffEncoder
  rw [hd]
  simp only [hc]
  rfl

theorem createVcdiffEncoder_error (hd : opts.hashedDictionary = some dictionary) {e : OptionError}
    (hc : checkEncodeWindowSize opts = .error e) : createVcdiffEncoder E opts = .error e := by
  unfold createVcdiffEncoder
  rw [hd]
  simp only [hc]
  rfl

/-- A decoder stream that was made has the default limits passed to its decoder. -/
theorem createVcdiffDecoder_eq_ok {s : Engine δ} (h : createVcdiffDecoder D opts = .ok s) :
    s = .init .decode (minEncodeWindowSizeOf opts.minEncodeWindowSize)
      (highWaterMarkOf opts.highWaterMark)
      (VcdCtx.newDecoder D opts.allowVcdTarget (.ofInt DEFAULT_MAX_TARGET_FILE_SIZE)
        (.ofInt DEFAULT_MAX_TARGET_WINDOW_SIZE)) := by
  unfold createVcdiffDecoder at h
  split at h
  · cases h
  · cases hf : checkMaxTargetFileSize opts with
    | error e => simp only [hf, bind, Except.bind, reduceCtorEq] at h
    | ok u =>
      cases hw : checkMaxTargetWindowSize opts with
      | error e => simp only [hf, hw, bind, Except.bind, reduceCtorEq] at h
      | ok u =>
        simp only [hf, hw, bind, Except.bind, pure, Except.pure, Except.ok.injEq] at h
        exact h.symm

theorem createVcdiffDecoder_ok (hd : opts.dictionary = some dictionary)
    (hf : opts.maxTargetFileSize = none) (hw : opts.maxTargetWindowSize = none) :
    createVcdiffDecoder D opts =
      .ok (.init .decode (minEncodeWindowSizeOf opts.minEncodeWindowSize)
        (highWaterMarkOf opts.highWaterMark)
        (VcdCtx.newDecoder D opts.allowVcdTarget (.ofInt DEFAULT_MAX_TARGET_FILE_SIZE)
          (.ofInt DEFAULT_MAX_TARGET_WINDOW_SIZE))) := by
  unfold createVcdiffDecoder checkMaxTargetFileSize checkMaxTargetWindowSize
  rw [hd, hf, hw]
  rfl

/-- A limit that is a number other than 0 is always refused. -/
theorem createVcdiffDecoder_throws {v : Number} (hv : v.truthy = true)
    (h : opts.maxTargetFileSize = some v ∨ opts.maxTargetWindowSize = some v) :
    ∃ e, createVcdiffDecoder D opts = .error e := by
  unfold createVcdiffDecoder
  split
  · exact ⟨_, rfl⟩
  · cases hf : checkMaxTargetFileSize opts with
    | error e => exact ⟨e, rfl⟩
    | ok u =>
      rcases h with h | h
      · rw [checkMaxTargetFileSize_of_truthy h hv] at hf
        cases hf
      · exact ⟨_, by rw [checkMaxTargetWindowSize_of_truthy h hv]; rfl⟩

end NodeVcdiff
