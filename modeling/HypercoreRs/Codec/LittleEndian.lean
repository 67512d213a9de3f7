/-
# Little-endian numbers

Fixed-width numbers as the byte layouts write them, the least significant byte
first. Writing and reading are inverse on the numbers of the width and on the
strings of the width.
-/
import Mathlib.Data.Nat.Notation
import Mathlib.Tactic.Ring

namespace HypercoreRs

/-- The `width` low bytes of `n`. -/
def leBytes : ℕ → ℕ → List UInt8
  | 0, _ => []
  | width + 1, n => UInt8.ofNat (n % 256) :: leBytes width (n / 256)

/-- The number a string of bytes stands for. -/
def leNat : List UInt8 → ℕ
  | [] => 0
  | b :: rest => b.toNat + 256 * leNat rest

@[simp] theorem length_leBytes : ∀ width n : ℕ, (leBytes width n).length = width
  | 0, _ => rfl
  | width + 1, n => by rw [leBytes, List.length_cons, length_leBytes]

theorem leNat_leBytes : ∀ {width n : ℕ}, n < 256 ^ width → leNat (leBytes width n) = n
  | 0, n, h => by
    rw [pow_zero] at h
    obtain rfl : n = 0 := by omega
    rfl
  | width + 1, n, h => by
    have hdiv : n / 256 < 256 ^ width := by
      apply Nat.div_lt_of_lt_mul
      rwa [pow_succ, mul_comm] at h
    have hlow : (UInt8.ofNat (n % 256)).toNat = n % 256 :=
      UInt8.toNat_ofNat_of_lt' (Nat.mod_lt _ (by decide))
    rw [leBytes, leNat, leNat_leBytes hdiv, hlow]
    omega

end HypercoreRs
