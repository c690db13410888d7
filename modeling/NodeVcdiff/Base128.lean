import Mathlib.Algebra.Order.Ring.Nat
import Mathlib.Data.List.Basic

/-!
# Numbers in base 128

A number is written as bytes of seven bits each, the highest first. Every byte but the last has
its high bit set.
-/

namespace Base128

/-- The high bit is set: the number goes on. -/
def Continued (b : UInt8) : Prop := 128 ≤ b.toNat

instance (b : UInt8) : Decidable (Continued b) := inferInstanceAs (Decidable (128 ≤ b.toNat))

/-- The value of digits read after `v`. -/
def valueFrom (v : ℕ) (bytes : List UInt8) : ℕ :=
  bytes.foldl (fun v b => 128 * v + b.toNat % 128) v

/-- The value of a list of digits. -/
def value (bytes : List UInt8) : ℕ := valueFrom 0 bytes

/-- The bytes are one number, written to its end. -/
structure IsNumber (bytes : List UInt8) (v : ℕ) : Prop where
  form : ∃ high low, bytes = high ++ [low] ∧ (∀ b ∈ high, Continued b) ∧ ¬Continued low
  worth : value bytes = v

theorem valueFrom_cons (v : ℕ) (b : UInt8) (bytes : List UInt8) :
    valueFrom v (b :: bytes) = valueFrom (128 * v + b.toNat % 128) bytes := rfl

theorem valueFrom_append (v : ℕ) (bytes more : List UInt8) :
    valueFrom v (bytes ++ more) = valueFrom (valueFrom v bytes) more := List.foldl_append

/-- More digits do not make a number smaller. -/
theorem le_valueFrom (v : ℕ) (bytes : List UInt8) : v ≤ valueFrom v bytes := by
  induction bytes generalizing v with
  | nil => exact Nat.le_refl v
  | cons b bytes ih =>
    rw [valueFrom_cons]
    exact Nat.le_trans (by omega) (ih _)

/-- `n` digits make a number below `128 ^ n`. -/
theorem value_lt (bytes : List UInt8) : value bytes < 128 ^ bytes.length := by
  have hfrom : ∀ v, valueFrom v bytes < (v + 1) * 128 ^ bytes.length := by
    induction bytes with
    | nil => intro v; rw [List.length_nil, Nat.pow_zero, Nat.mul_one]; exact Nat.lt_succ_self v
    | cons b bytes ih =>
      intro v
      rw [valueFrom_cons, List.length_cons, Nat.pow_succ, Nat.mul_comm (128 ^ bytes.length),
        ← Nat.mul_assoc]
      refine Nat.lt_of_lt_of_le (ih _) (Nat.mul_le_mul_right _ ?_)
      omega
  have h := hfrom 0
  rwa [Nat.zero_add, Nat.one_mul] at h

/-- A digit in front of a number. -/
theorem IsNumber.cons {bytes : List UInt8} {v : ℕ} (h : IsNumber bytes v) {b : UInt8}
    (hb : Continued b) :
    IsNumber (b :: bytes) (valueFrom (b.toNat % 128) bytes) := by
  obtain ⟨high, low, rfl, hhigh, hlow⟩ := h.form
  refine ⟨⟨b :: high, low, rfl, ?_, hlow⟩, ?_⟩
  · intro c hc
    rcases List.mem_cons.mp hc with rfl | hc
    · exact hb
    · exact hhigh c hc
  · show valueFrom (128 * 0 + b.toNat % 128) _ = _
    rw [Nat.mul_zero, Nat.zero_add]

/-- A byte by itself. -/
theorem isNumber_singleton {b : UInt8} (hb : ¬Continued b) : IsNumber [b] b.toNat where
  form := ⟨[], b, rfl, (by simp), hb⟩
  worth := by
    unfold Continued at hb
    show 128 * 0 + b.toNat % 128 = b.toNat
    omega

theorem IsNumber.ne_nil {bytes : List UInt8} {v : ℕ} (h : IsNumber bytes v) : bytes ≠ [] := by
  obtain ⟨high, low, rfl, -⟩ := h.form
  exact List.append_ne_nil_of_right_ne_nil high (List.cons_ne_nil low [])

/-- Where a number ends is determined by its bytes. -/
theorem IsNumber.eq_of_append {bytes bytes' rest rest' : List UInt8} {v v' : ℕ}
    (h : IsNumber bytes v) (h' : IsNumber bytes' v') (heq : bytes ++ rest = bytes' ++ rest') :
    bytes = bytes' ∧ rest = rest' := by
  obtain ⟨high, low, rfl, hhigh, hlow⟩ := h.form
  obtain ⟨high', low', rfl, hhigh', hlow'⟩ := h'.form
  clear h h'
  induction high generalizing high' with
  | nil =>
    cases high' with
    | nil =>
      obtain ⟨rfl, rfl⟩ := List.cons.inj heq
      exact ⟨rfl, rfl⟩
    | cons b high' =>
      obtain ⟨rfl, -⟩ := List.cons.inj heq
      exact absurd (hhigh' _ List.mem_cons_self) hlow
  | cons b high ih =>
    cases high' with
    | nil =>
      obtain ⟨rfl, -⟩ := List.cons.inj heq
      exact absurd (hhigh _ List.mem_cons_self) hlow'
    | cons b' high' =>
      obtain ⟨rfl, htail⟩ := List.cons.inj heq
      obtain ⟨hb, rfl⟩ := ih (fun c hc => hhigh c (List.mem_cons_of_mem _ hc)) high' htail
        (fun c hc => hhigh' c (List.mem_cons_of_mem _ hc))
      exact ⟨congrArg (b :: ·) hb, rfl⟩

end Base128
