import Mathlib.Algebra.Ring.Basic
import Mathlib.Algebra.Order.Ring.Nat
import Mathlib.Tactic.Ring

/-!
# Polynomial hashes

The hash of a list is the polynomial with its elements as coefficients, the last one first, at a
fixed point. The hash of a window that moves on by one element is computed from the hash before.
-/

namespace PolynomialHash

variable {R α : Type*} [CommRing R] (k : R) (v : α → R)

/-- The hash of a list that comes after a hash `h`. -/
def hashFrom (h : R) (xs : List α) : R := xs.foldl (fun h x => h * k + v x) h

/-- The hash of a list. -/
def hash (xs : List α) : R := hashFrom k v 0 xs

variable {k v}

@[simp] theorem hashFrom_nil (h : R) : hashFrom k v h [] = h := rfl

@[simp] theorem hashFrom_cons (h : R) (x : α) (xs : List α) :
    hashFrom k v h (x :: xs) = hashFrom k v (h * k + v x) xs := rfl

theorem hashFrom_append (h : R) (xs ys : List α) :
    hashFrom k v h (xs ++ ys) = hashFrom k v (hashFrom k v h xs) ys := List.foldl_append

/-- What came before counts with the power of the length. -/
theorem hashFrom_eq (h : R) (xs : List α) :
    hashFrom k v h xs = h * k ^ xs.length + hash k v xs := by
  induction xs generalizing h with
  | nil => rw [hash, hashFrom_nil, hashFrom_nil, List.length_nil, pow_zero, mul_one, add_zero]
  | cons x xs ih =>
    have hx : hash k v (x :: xs) = (0 * k + v x) * k ^ xs.length + hash k v xs := by
      rw [hash, hashFrom_cons]
      exact ih _
    rw [hashFrom_cons, ih, hx, List.length_cons, pow_succ]
    ring

theorem hash_cons (x : α) (xs : List α) : hash k v (x :: xs) = v x * k ^ xs.length + hash k v xs := by
  rw [hash, hashFrom_cons, hashFrom_eq, zero_mul, zero_add]

theorem hash_snoc (x : α) (xs : List α) : hash k v (xs ++ [x]) = hash k v xs * k + v x := by
  rw [hash, hashFrom_append]
  rfl

/-- A window moves on: its first element is taken out and another one comes in. -/
theorem hash_roll (x y : α) (xs : List α) :
    hash k v (xs ++ [y]) = (hash k v (x :: xs) - v x * k ^ xs.length) * k + v y := by
  rw [hash_snoc, hash_cons, add_sub_cancel_left]

end PolynomialHash
