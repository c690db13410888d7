import Mathlib.Algebra.Order.Ring.Nat
import Mathlib.Tactic.Ring
import NodeVcdiff.Loop

/-!
# `adler32.c`

The checksum of a target window. Two sums modulo `BASE` are kept; the division is put off for as
many bytes as 32 bits can hold.
-/

namespace OpenVcdiff

namespace Adler32

/-- `BASE`. -/
def BASE : ℕ := 65521

/-- `NMAX`. -/
def NMAX : ℕ := 5552

/-- One byte: `DO1`. -/
def do1 (s : ℕ × ℕ) (b : UInt8) : ℕ × ℕ := (s.1 + b.toNat, s.2 + (s.1 + b.toNat))

/-- Some bytes without a division. -/
def sums (s : ℕ × ℕ) (buf : List UInt8) : ℕ × ℕ := buf.foldl do1 s

/-- `MOD` of both sums. -/
def mod (s : ℕ × ℕ) : ℕ × ℕ := (s.1 % BASE, s.2 % BASE)

/-- `if (a >= BASE) a -= BASE`. -/
def subBase (a : ℕ) : ℕ := if a ≥ BASE then a - BASE else a

/-- The recombined sums. -/
def combine (s : ℕ × ℕ) : ℕ := s.1 ||| (s.2 <<< 16)

/-- The blocks of `NMAX` bytes, and then the remaining bytes. -/
def blocks : Loop ((ℕ × ℕ) × List UInt8) (ℕ × ℕ) where
  body x :=
    if x.2.length ≥ NMAX then .inl (mod (sums x.1 (x.2.take NMAX)), x.2.drop NMAX)
    else .inr (if x.2 = [] then x.1 else mod (sums x.1 x.2))
  size x := x.2.length
  shrinks := by
    intro x y h
    split at h
    · next hlen =>
      cases h
      rw [List.length_drop]
      unfold NMAX at hlen ⊢
      omega
    · cases h

/-- `adler32` of a buffer that is not null. -/
def adler32 (adler : ℕ) (buf : List UInt8) : ℕ :=
  let s : ℕ × ℕ := (adler &&& 0xFFFF, (adler >>> 16) &&& 0xFFFF)
  match buf with
  | [b] =>
    let a := subBase (s.1 + b.toNat)
    combine (a, subBase (s.2 + a))
  | buf =>
    if buf.length < 16 then
      let s := sums s buf
      combine (subBase s.1, s.2 % BASE)
    else combine (blocks.run (s, buf))

/-- `ComputeAdler32`. The first sum starts at 0. -/
def computeAdler32 (buf : List UInt8) : ℕ := adler32 0 buf

/-- `UpdateAdler32`. -/
def updateAdler32 (partialChecksum : ℕ) (buf : List UInt8) : ℕ := adler32 partialChecksum buf

/-! ## The checksum that is computed in effect -/

/-- One byte, with both sums reduced. -/
def step (s : ℕ × ℕ) (b : UInt8) : ℕ × ℕ :=
  ((s.1 + b.toNat) % BASE, (s.2 + (s.1 + b.toNat) % BASE) % BASE)

/-- Both sums reduced after every byte. -/
def plain (s : ℕ × ℕ) (buf : List UInt8) : ℕ × ℕ := buf.foldl step s

/-- The two sums of a checksum. -/
def split (adler : ℕ) : ℕ × ℕ := (adler % 65536, adler / 65536)

/-- A checksum: both sums are below `BASE`. -/
def IsChecksum (adler : ℕ) : Prop := (split adler).1 < BASE ∧ (split adler).2 < BASE

variable {s : ℕ × ℕ} {buf : List UInt8}

theorem step_lt (s : ℕ × ℕ) (b : UInt8) : (step s b).1 < BASE ∧ (step s b).2 < BASE :=
  ⟨Nat.mod_lt _ (by decide), Nat.mod_lt _ (by decide)⟩

theorem plain_lt (h : s.1 < BASE ∧ s.2 < BASE) : (plain s buf).1 < BASE ∧ (plain s buf).2 < BASE := by
  induction buf generalizing s with
  | nil => exact h
  | cons b buf ih => exact ih (step_lt s b)

theorem plain_append (s : ℕ × ℕ) (buf more : List UInt8) :
    plain s (buf ++ more) = plain (plain s buf) more := List.foldl_append

theorem mod_of_lt (h : s.1 < BASE ∧ s.2 < BASE) : mod s = s :=
  Prod.ext (Nat.mod_eq_of_lt h.1) (Nat.mod_eq_of_lt h.2)

/-- Reducing the sums before or after a byte comes to the same. -/
theorem mod_do1 (s : ℕ × ℕ) (b : UInt8) : mod (do1 s b) = step (mod s) b := by
  unfold mod do1 step
  refine Prod.ext ?_ ?_
  · exact (Nat.mod_add_mod _ _ _).symm
  · show (s.2 + (s.1 + b.toNat)) % BASE = (s.2 % BASE + (s.1 % BASE + b.toNat) % BASE) % BASE
    rw [Nat.mod_add_mod, Nat.mod_add_mod, Nat.add_mod_mod]

/-- The division can be put off. -/
theorem mod_sums (s : ℕ × ℕ) (buf : List UInt8) : mod (sums s buf) = plain (mod s) buf := by
  induction buf generalizing s with
  | nil => rfl
  | cons b buf ih =>
    show mod (sums (do1 s b) buf) = plain (step (mod s) b) buf
    rw [ih, mod_do1]

theorem blocks_run (h : s.1 < BASE ∧ s.2 < BASE) (buf : List UInt8) :
    blocks.run (s, buf) = plain s buf := by
  have hrun := blocks.run_rel (R := fun x r => (x.1.1 < BASE ∧ x.1.2 < BASE) → r = plain x.1 x.2)
    (fun x y r hbody hr hx => ?_) (fun x r hbody hx => ?_) (s, buf)
  · exact hrun h
  · simp only [blocks] at hbody
    split at hbody
    · cases hbody
      have hblock : mod (sums x.1 (x.2.take NMAX)) = plain x.1 (x.2.take NMAX) := by
        rw [mod_sums, mod_of_lt hx]
      rw [hr (hblock ▸ plain_lt hx), hblock, ← plain_append, List.take_append_drop]
    · cases hbody
  · simp only [blocks] at hbody
    split at hbody
    · cases hbody
    · cases hbody
      split
      · next hnil => rw [hnil]; rfl
      · rw [mod_sums, mod_of_lt hx]

/-- How large the sums become without a division. -/
theorem sums_bound (h : s.1 < BASE ∧ s.2 < BASE) (buf : List UInt8) :
    (sums s buf).1 ≤ BASE - 1 + 255 * buf.length ∧
      2 * (sums s buf).2 ≤ 2 * (BASE - 1) * (buf.length + 1) +
        255 * (buf.length * (buf.length + 1)) := by
  have hfold : ∀ (n : ℕ) (buf : List UInt8) (s : ℕ × ℕ), s.1 ≤ BASE - 1 + 255 * n →
      2 * s.2 ≤ 2 * (BASE - 1) * (n + 1) + 255 * (n * (n + 1)) →
      (sums s buf).1 ≤ BASE - 1 + 255 * (n + buf.length) ∧
        2 * (sums s buf).2 ≤ 2 * (BASE - 1) * (n + buf.length + 1) +
          255 * ((n + buf.length) * (n + buf.length + 1)) := by
    intro n buf
    induction buf generalizing n with
    | nil => exact fun s h1 h2 => ⟨h1, h2⟩
    | cons b buf ih =>
      intro s h1 h2
      have hb := b.toNat_lt
      have hlen : n + (b :: buf).length = n + 1 + buf.length := by
        rw [List.length_cons]
        omega
      rw [hlen]
      have hsq : (n + 1) * (n + 1 + 1) = n * (n + 1) + 2 * (n + 1) := by ring
      refine ih (n + 1) (do1 s b) ?_ ?_
      · show s.1 + b.toNat ≤ _
        omega
      · show 2 * (s.2 + (s.1 + b.toNat)) ≤ _
        rw [hsq]
        unfold BASE at *
        omega
  have := hfold 0 buf s (by omega) (by omega)
  simpa only [Nat.zero_add] using this

/-- No sum of a block leaves 32 bits. -/
theorem sums_lt (h : s.1 < BASE ∧ s.2 < BASE) (hlen : buf.length ≤ NMAX) :
    (sums s buf).1 < 2 ^ 32 ∧ (sums s buf).2 < 2 ^ 32 := by
  obtain ⟨h1, h2⟩ := sums_bound h buf
  have hsq : buf.length * (buf.length + 1) ≤ NMAX * (NMAX + 1) :=
    Nat.mul_le_mul hlen (Nat.succ_le_succ hlen)
  unfold BASE NMAX at *
  omega

/-- One subtraction reduces a sum below twice `BASE`. -/
theorem subBase_eq {a : ℕ} (h : a < 2 * BASE) : subBase a = a % BASE := by
  unfold subBase
  split
  · next hge => rw [Nat.mod_eq_sub_mod hge, Nat.mod_eq_of_lt (by omega)]
  · next hlt => rw [Nat.mod_eq_of_lt (by omega)]

theorem combine_eq (h : s.1 < BASE) : combine s = s.1 + 65536 * s.2 := by
  unfold BASE at h
  rw [combine, Nat.shiftLeft_eq, Nat.or_comm, Nat.mul_comm s.2]
  rw [← Nat.two_pow_add_eq_or_of_lt (i := 16) (by omega) s.2]
  omega

theorem split_combine (h : s.1 < BASE ∧ s.2 < BASE) : split (combine s) = s := by
  rw [combine_eq h.1, split]
  unfold BASE at h
  exact Prod.ext (by show _ % _ = _; omega) (by show _ / _ = _; omega)

/-- The function with its short cuts computes what its comment says, started at any checksum. -/
theorem adler32_eq {adler : ℕ} (h : IsChecksum adler) (buf : List UInt8) :
    adler32 adler buf = combine (plain (split adler) buf) := by
  have hs : (adler &&& 0xFFFF, (adler >>> 16) &&& 0xFFFF) = split adler := by
    have h2 : adler / 65536 < BASE := h.2
    unfold BASE at h2
    refine Prod.ext (Nat.and_two_pow_sub_one_eq_mod adler 16) ?_
    show (adler >>> 16) &&& 0xFFFF = adler / 65536
    rw [Nat.shiftRight_eq_div_pow]
    exact (Nat.and_two_pow_sub_one_eq_mod _ 16).trans (Nat.mod_eq_of_lt (by omega))
  unfold adler32
  rw [hs]
  simp only
  split
  · next b =>
    have hb := b.toNat_lt
    have ha : subBase ((split adler).1 + b.toNat) = ((split adler).1 + b.toNat) % BASE :=
      subBase_eq (by have := h.1; unfold BASE at *; omega)
    have hlt : ((split adler).1 + b.toNat) % BASE < BASE := Nat.mod_lt _ (by decide)
    rw [ha, subBase_eq (by have := h.2; omega)]
    rfl
  · split
    · next hlen =>
      have h1 := (sums_bound h buf).1
      rw [subBase_eq (by unfold BASE at *; omega)]
      show combine (mod (sums (split adler) buf)) = _
      rw [mod_sums, mod_of_lt h]
    · rw [blocks_run h]

/-- A checksum is one again, and it can be computed piece by piece. -/
theorem updateAdler32_append {adler : ℕ} (h : IsChecksum adler) (buf more : List UInt8) :
    updateAdler32 (updateAdler32 adler buf) more = updateAdler32 adler (buf ++ more) ∧
      IsChecksum (updateAdler32 adler buf) ∧ updateAdler32 adler buf ≤ 0xFFFFFFFF := by
  have hplain : (plain (split adler) buf).1 < BASE ∧ (plain (split adler) buf).2 < BASE :=
    plain_lt h
  have hsplit : split (updateAdler32 adler buf) = plain (split adler) buf := by
    rw [updateAdler32, adler32_eq h, split_combine hplain]
  have hcheck : IsChecksum (updateAdler32 adler buf) := by
    unfold IsChecksum
    rw [hsplit]
    exact hplain
  refine ⟨?_, hcheck, ?_⟩
  · rw [updateAdler32, adler32_eq hcheck, hsplit, ← plain_append, updateAdler32, adler32_eq h]
  · rw [updateAdler32, adler32_eq h, combine_eq hplain.1]
    unfold BASE at hplain
    omega

theorem isChecksum_zero : IsChecksum 0 := ⟨by decide, by decide⟩

theorem computeAdler32_le (buf : List UInt8) : computeAdler32 buf ≤ 0xFFFFFFFF :=
  (updateAdler32_append isChecksum_zero buf []).2.2

/-- The blockwise sums stay within 32 bits at every byte, so that putting the division off changes
nothing: the result is the checksum with both sums reduced after every byte. The checksum of a text
is that of its end, started at the checksum of its beginning. -/
theorem adler32_deferred {adler : ℕ} (h : IsChecksum adler) (buf more : List UInt8) :
    adler32 adler buf = combine (buf.foldl step (split adler)) ∧
      (∀ block : List UInt8, block.length ≤ NMAX → ∀ done : List UInt8,
        (sums (plain (split adler) done) block).1 < 2 ^ 32 ∧
        (sums (plain (split adler) done) block).2 < 2 ^ 32) ∧
      adler32 (adler32 adler buf) more = adler32 adler (buf ++ more) ∧
      IsChecksum (adler32 adler buf) :=
  ⟨adler32_eq h buf, fun _ hlen _ => sums_lt (plain_lt h) hlen,
    (updateAdler32_append h buf more).1, (updateAdler32_append h buf more).2.1⟩

theorem adler32_deferred_zero :
    adler32 0 [1, 2] = combine ([1, 2].foldl step (split 0)) ∧
      (∀ block : List UInt8, block.length ≤ NMAX → ∀ done : List UInt8,
        (sums (plain (split 0) done) block).1 < 2 ^ 32 ∧
        (sums (plain (split 0) done) block).2 < 2 ^ 32) ∧
      adler32 (adler32 0 [1, 2]) [3] = adler32 0 ([1, 2] ++ [3]) ∧ IsChecksum (adler32 0 [1, 2]) :=
  adler32_deferred ⟨by decide, by decide⟩ [1, 2] [3]

end Adler32

end OpenVcdiff
