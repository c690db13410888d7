import Mathlib.Data.List.GetD
import Mathlib.Data.ZMod.Basic
import NodeVcdiff.PolynomialHash

/-!
# `rolling_hash.h`

The hash of a window of bytes, and the hash of the next window out of it.
-/

namespace OpenVcdiff

namespace RollingHash

/-! ## `RollingHashUtil` -/

/-- `kMult`. -/
def kMult : UInt32 := 257

/-- `kBase`. -/
def kBase : UInt32 := (1 : UInt32) <<< 23

/-- `ModBase`. -/
def modBase (operand : UInt32) : UInt32 := operand &&& (kBase - 1)

/-- `FindModBaseInverse`. -/
def findModBaseInverse (operand : UInt32) : UInt32 := modBase (0 - operand)

/-- `HashStep`. -/
def hashStep (partialHash : UInt32) (nextByte : UInt8) : UInt32 :=
  modBase (partialHash * kMult + nextByte.toUInt32)

/-- `HashFirstTwoBytes`. -/
def hashFirstTwoBytes (b₀ b₁ : UInt8) : UInt32 := b₀.toUInt32 * kMult + b₁.toUInt32

/-! ## `RollingHash` -/

/-- `Hash` of the bytes of a window. There are at least two of them. -/
def hash : List UInt8 → UInt32
  | b₀ :: b₁ :: window => window.foldl hashStep (hashFirstTwoBytes b₀ b₁)
  | _ => 0

/-- The multiplier that `Init` computes. -/
def multiplier (windowSize : ℕ) : UInt32 :=
  (List.range (windowSize - 1)).foldl (fun multiplier _ => modBase (multiplier * kMult)) 1

/-- The loop that fills `remove_table_`, for the last `n` entries. -/
def fillRemoveTable (multiplier : UInt32) : (n : ℕ) → (byteTimesMultiplier : UInt32) → List UInt32
  | 0, _ => []
  | n + 1, byteTimesMultiplier =>
    findModBaseInverse byteTimesMultiplier ::
      fillRemoveTable multiplier n (modBase (byteTimesMultiplier + multiplier))

/-- `remove_table_`. -/
def removeTable (windowSize : ℕ) : List UInt32 := fillRemoveTable (multiplier windowSize) 256 0

/-- `RemoveFirstByteFromHash`. -/
def removeFirstByteFromHash (windowSize : ℕ) (fullHash : UInt32) (firstByte : UInt8) : UInt32 :=
  modBase (fullHash + (removeTable windowSize).getD firstByte.toNat 0)

/-- `UpdateHash`. -/
def updateHash (windowSize : ℕ) (oldHash : UInt32) (oldFirstByte newLastByte : UInt8) : UInt32 :=
  hashStep (removeFirstByteFromHash windowSize oldHash oldFirstByte) newLastByte

/-! ## The hash as a polynomial -/

/-- A hash as a residue. -/
def residue (x : UInt32) : ZMod (2 ^ 23) := x.toNat

/-- A byte as a residue. -/
def byteResidue (b : UInt8) : ZMod (2 ^ 23) := b.toNat

theorem toNat_modBase (x : UInt32) : (modBase x).toNat = x.toNat % 2 ^ 23 := by
  have hmask : (kBase - 1).toNat = 2 ^ 23 - 1 := by decide
  rw [modBase, UInt32.toNat_and, hmask]
  exact Nat.and_two_pow_sub_one_eq_mod x.toNat 23

theorem modBase_lt (x : UInt32) : (modBase x).toNat < 2 ^ 23 := by
  rw [toNat_modBase]
  exact Nat.mod_lt _ (Nat.two_pow_pos 23)

theorem natCast_mod_two_pow (n : ℕ) : ((n % 2 ^ 32 : ℕ) : ZMod (2 ^ 23)) = n := by
  apply (ZMod.natCast_eq_natCast_iff' _ _ _).mpr
  exact Nat.mod_mod_of_dvd n (pow_dvd_pow 2 (by omega))

@[simp] theorem residue_modBase (x : UInt32) : residue (modBase x) = residue x := by
  rw [residue, toNat_modBase]
  exact ZMod.natCast_mod _ _

@[simp] theorem residue_add (x y : UInt32) : residue (x + y) = residue x + residue y := by
  rw [residue, UInt32.toNat_add, natCast_mod_two_pow, Nat.cast_add]
  rfl

@[simp] theorem residue_mul (x y : UInt32) : residue (x * y) = residue x * residue y := by
  rw [residue, UInt32.toNat_mul, natCast_mod_two_pow, Nat.cast_mul]
  rfl

@[simp] theorem residue_byte (b : UInt8) : residue b.toUInt32 = byteResidue b := by
  rw [residue, UInt8.toNat_toUInt32]
  rfl

theorem residue_injective {x y : UInt32} (hx : x.toNat < 2 ^ 23) (hy : y.toNat < 2 ^ 23)
    (h : residue x = residue y) : x = y := by
  have := (ZMod.natCast_eq_natCast_iff' _ _ _).mp h
  rw [Nat.mod_eq_of_lt hx, Nat.mod_eq_of_lt hy] at this
  exact UInt32.toNat_inj.mp this

theorem residue_neg (x : UInt32) : residue (findModBaseInverse x) = -residue x := by
  have h : residue (findModBaseInverse x) + residue x = 0 := by
    rw [findModBaseInverse, residue_modBase, ← residue_add, UInt32.sub_add_cancel]
    rfl
  exact eq_neg_of_add_eq_zero_left h

theorem residue_hashStep (h : UInt32) (b : UInt8) :
    residue (hashStep h b) = residue h * 257 + byteResidue b := by
  rw [hashStep, residue_modBase, residue_add, residue_mul, residue_byte]
  rfl

theorem residue_foldl (h : UInt32) (bs : List UInt8) :
    residue (bs.foldl hashStep h) = PolynomialHash.hashFrom 257 byteResidue (residue h) bs := by
  induction bs generalizing h with
  | nil => rfl
  | cons b bs ih => rw [List.foldl_cons, ih, residue_hashStep, PolynomialHash.hashFrom_cons]

/-- `Hash` is the polynomial hash of the window. -/
theorem residue_hash {window : List UInt8} (h : 2 ≤ window.length) :
    residue (hash window) = PolynomialHash.hash 257 byteResidue window := by
  match window, h with
  | b₀ :: b₁ :: window, _ =>
    rw [hash, residue_foldl, PolynomialHash.hash, PolynomialHash.hashFrom_cons,
      PolynomialHash.hashFrom_cons, zero_mul, zero_add, hashFirstTwoBytes, residue_add,
      residue_mul, residue_byte, residue_byte]
    rfl

theorem foldl_hashStep_lt {h : UInt32} (hlt : h.toNat < 2 ^ 23) (bs : List UInt8) :
    (bs.foldl hashStep h).toNat < 2 ^ 23 := by
  induction bs generalizing h with
  | nil => exact hlt
  | cons b bs ih => exact ih (modBase_lt _)

theorem hash_lt (window : List UInt8) : (hash window).toNat < 2 ^ 23 := by
  match window with
  | [] => decide
  | [_] => exact Nat.two_pow_pos 23
  | b₀ :: b₁ :: window =>
    -- two bytes do not reach the base
    apply foldl_hashStep_lt
    have h₀ := b₀.toNat_lt
    have h₁ := b₁.toNat_lt
    have hmult : kMult.toNat = 257 := rfl
    rw [hashFirstTwoBytes, UInt32.toNat_add, UInt32.toNat_mul, UInt8.toNat_toUInt32,
      UInt8.toNat_toUInt32, hmult, Nat.mod_eq_of_lt (by omega : b₀.toNat * 257 < 2 ^ 32),
      Nat.mod_eq_of_lt (by omega : b₀.toNat * 257 + b₁.toNat < 2 ^ 32)]
    omega

/-! ## Moving on -/

theorem residue_multiplier (n : ℕ) : residue (multiplier n) = 257 ^ (n - 1) := by
  unfold multiplier
  induction n - 1 with
  | zero => rfl
  | succ m ih =>
    rw [List.range_succ, List.foldl_append, List.foldl_cons, List.foldl_nil, residue_modBase,
      residue_mul, ih]
    exact (pow_succ (257 : ZMod (2 ^ 23)) m).symm

theorem getD_fillRemoveTable (mult : UInt32) {n i : ℕ} (hi : i < n) (start : UInt32) :
    residue ((fillRemoveTable mult n start).getD i 0) = -(residue start + i * residue mult) := by
  induction n generalizing i start with
  | zero => exact absurd hi (Nat.not_lt_zero i)
  | succ n ih =>
    cases i with
    | zero =>
      rw [fillRemoveTable, List.getD_cons_zero, residue_neg, Nat.cast_zero, zero_mul, add_zero]
    | succ i =>
      rw [fillRemoveTable, List.getD_cons_succ, ih (Nat.lt_of_succ_lt_succ hi), residue_modBase,
        residue_add, Nat.cast_succ]
      ring

/-- The hash that is updated is the hash of the window moved on by one byte. -/
theorem updateHash_hash (a b : UInt8) {window : List UInt8} (h : 1 ≤ window.length) :
    updateHash (window.length + 1) (hash (a :: window)) a b = hash (window ++ [b]) := by
  have hlen : 2 ≤ (a :: window).length := Nat.succ_le_succ h
  have hlen' : 2 ≤ (window ++ [b]).length := by
    rw [List.length_append]
    exact Nat.succ_le_succ h
  apply residue_injective
  · exact modBase_lt _
  · exact hash_lt _
  rw [updateHash, residue_hashStep, removeFirstByteFromHash, residue_modBase, residue_add,
    residue_hash hlen, residue_hash hlen', PolynomialHash.hash_roll a b window, removeTable,
    getD_fillRemoveTable _ a.toNat_lt, residue_multiplier, Nat.add_sub_cancel]
  show (_ + -((0 : ZMod (2 ^ 23)) + byteResidue a * _)) * _ + _ = _
  ring

/-! ## Along the data -/

/-- The hash of the first window, moved on by `n` bytes. -/
def rolled (windowSize : ℕ) (data : List UInt8) : ℕ → UInt32
  | 0 => hash (data.take windowSize)
  | n + 1 => updateHash windowSize (rolled windowSize data n) (data.getD n 0)
      (data.getD (n + windowSize) 0)

/-- The window at a position and the next one have all but one byte in common. -/
theorem window_succ {windowSize n : ℕ} {data : List UInt8} (hw : 0 < windowSize)
    (hn : n + windowSize < data.length) : ∃ window, window.length + 1 = windowSize ∧
      (data.drop n).take windowSize = data.getD n 0 :: window ∧
      (data.drop (n + 1)).take windowSize = window ++ [data.getD (n + windowSize) 0] := by
  obtain ⟨m, rfl⟩ : ∃ m, windowSize = m + 1 := ⟨windowSize - 1, by omega⟩
  have hlt : n < data.length := by omega
  have hlt' : m < (data.drop (n + 1)).length := by
    rw [List.length_drop]
    omega
  refine ⟨(data.drop (n + 1)).take m, ?_, ?_, ?_⟩
  · rw [List.length_take_of_le (Nat.le_of_lt hlt')]
  · rw [List.drop_eq_getElem_cons hlt, List.getD_eq_getElem _ _ hlt]
    rfl
  · have hlast : data.getD (n + (m + 1)) 0 = (data.drop (n + 1)).getD m 0 := by
      rw [List.getD_eq_getElem?_getD, List.getD_eq_getElem?_getD, List.getElem?_drop, Nat.add_assoc,
        Nat.add_comm 1 m]
    rw [hlast, List.getD_eq_getElem _ _ hlt', List.take_append_getElem]

/-- Rolling along the data gives the hash of each window. -/
theorem rolled_eq {windowSize n : ℕ} {data : List UInt8} (hw : 2 ≤ windowSize)
    (hn : n + windowSize ≤ data.length) :
    rolled windowSize data n = hash ((data.drop n).take windowSize) := by
  induction n with
  | zero => rfl
  | succ n ih =>
    have hlt : n + windowSize < data.length := by omega
    obtain ⟨window, hlen, hhere, hnext⟩ := window_succ (Nat.lt_of_lt_of_le Nat.zero_lt_two hw) hlt
    rw [rolled, ih (by omega), hhere, hnext, ← hlen]
    exact updateHash_hash _ _ (by omega)

theorem rolled_eq_last : rolled 2 [1, 2, 3, 4] 2 = hash ([1, 2, 3, 4].drop 2 |>.take 2) :=
  rolled_eq (by decide) (by decide)

end RollingHash

end OpenVcdiff
