import Mathlib.Algebra.Order.Ring.Nat
import Mathlib.Data.Rat.Defs
import Mathlib.Algebra.Order.Ring.Unbundled.Rat

/-!
# Script numbers

The values of a double-precision number as far as comparisons and conversions look at
them: not-a-number, the two infinities, and finite values (as rationals).
-/

namespace Script

/-- A script number. `fin` covers every finite double. -/
inductive Number where
  | nan
  | negInf
  | posInf
  | fin (q : ℚ)
  deriving DecidableEq

namespace Number

def ofInt (n : ℤ) : Number := .fin n

/-- `a < b`: false as soon as one side is not a number. -/
def lt : Number → Number → Bool
  | nan, _ => false
  | _, nan => false
  | negInf, b => decide (b ≠ negInf)
  | _, negInf => false
  | posInf, _ => false
  | fin _, posInf => true
  | fin p, fin q => decide (p < q)

/-- `a >= b`, written `b ≤ a`: false as soon as one side is not a number. -/
def le : Number → Number → Bool
  | nan, _ => false
  | _, nan => false
  | negInf, _ => true
  | _, posInf => true
  | posInf, _ => false
  | _, negInf => false
  | fin p, fin q => decide (p ≤ q)

/-- The values that a condition treats as true. -/
def truthy : Number → Bool
  | nan => false
  | fin q => decide (q ≠ 0)
  | _ => true

/-- `a || b` on numbers. -/
def orElse (a : Option Number) (b : Number) : Number :=
  match a with
  | some v => if v.truthy then v else b
  | none => b

/-- What a 32-bit conversion starts from: the fraction is dropped, and what is not finite
becomes 0. -/
def trunc : Number → ℤ
  | fin q => if 0 ≤ q then q.floor else q.ceil
  | _ => 0

/-- On numbers proper, one of `a < b` and `a >= b` holds. -/
theorem lt_eq_not_le (a b : Number) (ha : a ≠ nan) (hb : b ≠ nan) : a.lt b = !b.le a := by
  cases a <;> cases b <;> simp_all [lt, le, ← not_lt]

theorem not_le_of_lt {a b : Number} (h : a.lt b = true) : b.le a = false := by
  cases a <;> cases b <;> simp_all [lt, le]

end Number

/-- `ToInt32` on an integer. -/
def toInt32 (n : ℤ) : ℤ := (BitVec.ofInt 32 n).toInt

/-- `a << b`: both operands become 32-bit integers, the shift distance is taken modulo 32. -/
def shl (a b : ℤ) : ℤ := (BitVec.ofInt 32 a <<< (b % 32).toNat).toInt

/-- `ToUint32` on a number. -/
def toUint32 (v : Number) : ℕ := (v.trunc % 2 ^ 32).toNat

end Script
