import NodeVcdiff.Number
import NodeVcdiff.Coder

/-!
# Options

The range constants of `vcdiff.js`, the options as far as the constructors look at them, and
the option checks.
-/

namespace NodeVcdiff

open Script (Number)

/-- `1 << 32 - 1`: the subtraction binds tighter than the shift. -/
def MAX_MAX_TARGET_FILE_SIZE : ℤ := Script.shl 1 (32 - 1)
def MIN_MAX_TARGET_FILE_SIZE : ℤ := 1
def DEFAULT_MAX_TARGET_FILE_SIZE : ℤ := Script.shl 1 26

def MAX_MAX_TARGET_WINDOW_SIZE : ℤ := Script.shl 1 (32 - 1)
def MIN_MAX_TARGET_WINDOW_SIZE : ℤ := 1
def DEFAULT_MAX_TARGET_WINDOW_SIZE : ℤ := Script.shl 1 26

def MIN_MIN_ENCODE_WINDOW_SIZE : Number := .ofInt 64
def MAX_MIN_ENCODE_WINDOW_SIZE : Number := .posInf
def DEFAULT_MIN_ENCODE_WINDOW_SIZE : ℤ := 4 * 1024

/-- The format flags of open-vcdiff. -/
def VCD_STANDARD_FORMAT : ℕ := 0
def VCD_FORMAT_INTERLEAVED : ℕ := 1
def VCD_FORMAT_CHECKSUM : ℕ := 2
def VCD_FORMAT_JSON : ℕ := 4

/-- `opts`. A dictionary stands for its contents; the flags are compared with a literal, so
anything else counts as the default. -/
structure Options where
  hashedDictionary : Option Buffer := none
  dictionary : Option Buffer := none
  minEncodeWindowSize : Option Number := none
  encodeWindowSize : Option Number := none
  interleaved : Bool := false
  checksum : Bool := false
  json : Bool := false
  targetMatches : Bool := false
  allowVcdTarget : Bool := true
  maxTargetFileSize : Option Number := none
  maxTargetWindowSize : Option Number := none
  highWaterMark : Option Number := none

/-- A thrown `Error`: its message and the number appended to it. -/
structure OptionError where
  message : String
  value : Option Number := none
  deriving DecidableEq

/-- `this._minEncodeWindowSize`, from a numeric or absent option. -/
def minEncodeWindowSizeOf (minEncodeWindowSize : Option Number) : Number :=
  .orElse minEncodeWindowSize (.ofInt DEFAULT_MIN_ENCODE_WINDOW_SIZE)

/-- The mark a stream takes from its options: absent or not a number, it is 16 KiB. -/
def highWaterMarkOf : Option Number → ℤ
  | some v => if v.truthy || v = .ofInt 0 then Script.toInt32 v.trunc else 16 * 1024
  | none => 16 * 1024

/-- An option is looked at when it is given and not 0; then it has to lie in its range. -/
def checkRange (message : String) (min max : Number) : Option Number → Except OptionError Unit
  | none => .ok ()
  | some v => if v.truthy && (v.lt min || max.lt v) then .error ⟨message, some v⟩ else .ok ()

def checkEncodeWindowSize (opts : Options) : Except OptionError Unit :=
  checkRange "Invalid encode window size: " MIN_MIN_ENCODE_WINDOW_SIZE MAX_MIN_ENCODE_WINDOW_SIZE
    opts.encodeWindowSize

def checkMaxTargetFileSize (opts : Options) : Except OptionError Unit :=
  checkRange "Invalid max target file size: " (.ofInt MIN_MAX_TARGET_FILE_SIZE)
    (.ofInt MAX_MAX_TARGET_FILE_SIZE) opts.maxTargetFileSize

def checkMaxTargetWindowSize (opts : Options) : Except OptionError Unit :=
  checkRange "Invalid max target window size: " (.ofInt MIN_MAX_TARGET_WINDOW_SIZE)
    (.ofInt MAX_MAX_TARGET_WINDOW_SIZE) opts.maxTargetWindowSize

/-- `flags`. -/
def formatExtensions (opts : Options) : ℕ :=
  let flags := VCD_STANDARD_FORMAT
  let flags := if opts.interleaved then flags ||| VCD_FORMAT_INTERLEAVED else flags
  let flags := if opts.checksum then flags ||| VCD_FORMAT_CHECKSUM else flags
  if opts.json then flags ||| VCD_FORMAT_JSON else flags

theorem minEncodeWindowSizeOf_ne_nan (minEncodeWindowSize : Option Number) :
    minEncodeWindowSizeOf minEncodeWindowSize ≠ .nan := by
  unfold minEncodeWindowSizeOf Number.orElse
  rcases minEncodeWindowSize with _ | v
  · simp [Number.ofInt]
  · cases v with
    | nan => simp [Number.truthy, Number.ofInt]
    | negInf | posInf => simp [Number.truthy]
    | fin q => by_cases hq : q = 0 <;> simp [Number.truthy, Number.ofInt, hq]

section Ranges

variable {message : String} {min max v : Number}

theorem checkRange_some : checkRange message min max (some v) =
    if v.truthy && (v.lt min || max.lt v) then .error ⟨message, some v⟩ else .ok () := rfl

/-- What is passed over or lies in the range passes; nothing else does. -/
theorem checkRange_eq_ok_iff {o : Option Number} : checkRange message min max o = .ok () ↔
    ∀ v, o = some v → v.truthy = true → v.lt min = false ∧ max.lt v = false := by
  cases o with
  | none => simp [checkRange]
  | some v =>
    have hsome : (∀ w, some v = some w → w.truthy = true → w.lt min = false ∧ max.lt w = false) ↔
        (v.truthy = true → v.lt min = false ∧ max.lt v = false) :=
      ⟨fun h => h v rfl, fun h w hw => by cases hw; exact h⟩
    rw [checkRange_some, hsome]
    cases hv : v.truthy with
    | false => simp
    | true => cases v.lt min <;> cases max.lt v <;> simp

/-- The error tells the value it is about. -/
theorem checkRange_error {o : Option Number} {e : OptionError}
    (h : checkRange message min max o = .error e) : e.message = message ∧ e.value = o := by
  cases o with
  | none => cases h
  | some v =>
    rw [checkRange_some] at h
    split at h
    · cases h; exact ⟨rfl, rfl⟩
    · cases h

/-- A range whose end lies before its start lets no number through. -/
theorem checkRange_of_empty {p q : ℤ} (hpq : q < p) (hv : v.truthy = true) :
    checkRange message (.ofInt p) (.ofInt q) (some v) = .error ⟨message, some v⟩ := by
  have hout : v.lt (.ofInt p) = true ∨ (Number.ofInt q).lt v = true := by
    cases v with
    | nan => cases hv
    | negInf => exact .inl rfl
    | posInf => exact .inr rfl
    | fin r =>
      simp only [Number.ofInt, Number.lt, decide_eq_true_eq]
      by_cases hr : r < p
      · exact .inl hr
      · refine .inr (lt_of_lt_of_le ?_ (not_lt.mp hr))
        exact_mod_cast hpq
  rw [checkRange_some, hv]
  rcases hout with h | h <;> simp [h]

end Ranges

theorem checkMaxTargetFileSize_of_truthy {opts : Options} {v : Number}
    (h : opts.maxTargetFileSize = some v) (hv : v.truthy = true) :
    checkMaxTargetFileSize opts = .error ⟨"Invalid max target file size: ", some v⟩ := by
  rw [checkMaxTargetFileSize, h]
  exact checkRange_of_empty (by decide) hv

theorem checkMaxTargetWindowSize_of_truthy {opts : Options} {v : Number}
    (h : opts.maxTargetWindowSize = some v) (hv : v.truthy = true) :
    checkMaxTargetWindowSize opts = .error ⟨"Invalid max target window size: ", some v⟩ := by
  rw [checkMaxTargetWindowSize, h]
  exact checkRange_of_empty (by decide) hv

/-- The default limits are 64 MiB. -/
theorem toUint32_default : Script.toUint32 (.ofInt DEFAULT_MAX_TARGET_FILE_SIZE) = 2 ^ 26 ∧
    Script.toUint32 (.ofInt DEFAULT_MAX_TARGET_WINDOW_SIZE) = 2 ^ 26 := by
  decide +kernel

/-- Without the JSON option the flags are below its flag. -/
theorem formatExtensions_lt {opts : Options} (h : opts.json = false) :
    formatExtensions opts < VCD_FORMAT_JSON := by
  unfold formatExtensions
  rw [h]
  cases opts.interleaved <;> cases opts.checksum <;> decide

end NodeVcdiff
