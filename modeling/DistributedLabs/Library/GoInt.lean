import Mathlib.Algebra.GroupWithZero.Nat
import Mathlib.Algebra.Ring.Int.Defs

/-!
Conversions between `int64` and `uint64`. They keep the 64 bits, and so do the sums.
-/

namespace GoInt

theorem toInt_toInt64 (n : UInt64) : n.toInt64.toInt = (n.toNat : Int).bmod (2 ^ 64) :=
  BitVec.toInt_eq_toNat_bmod n.toBitVec

theorem toInt_add_toInt64 (a : Int64) (n : UInt64) :
    (a + n.toInt64).toInt = (a.toInt + n.toNat).bmod (2 ^ 64) := by
  rw [Int64.toInt_add, toInt_toInt64, Int.add_bmod_bmod]

/-- The sum of two numbers that are not negative may be too large for an `int64`, but not
for a `uint64`. -/
theorem toNat_toUInt64_add {a b : Int64} (ha : 0 ≤ a.toInt) (hb : 0 ≤ b.toInt) :
    ((a + b).toUInt64.toNat : Int) = a.toInt + b.toInt := by
  have hmod : ((a + b).toUInt64.toNat : Int).bmod (2 ^ 64) =
      (a.toInt + b.toInt).bmod (2 ^ 64) := by
    rw [← Int64.toInt_add]
    exact (toInt_toInt64 (a + b).toUInt64).symm
  have hsum := congrArg (· % ((2 ^ 64 : Nat) : Int)) hmod
  simp only [Int.bmod_emod] at hsum
  have hlt := (a + b).toUInt64.toNat_lt
  have ha' := a.toInt_lt
  have hb' := b.toInt_lt
  omega

/-- A number that wraps around at most once. -/
theorem bmod_eq_ite {x : Int} (h0 : 0 ≤ x) (h1 : x < 3 * 2 ^ 63) :
    x.bmod (2 ^ 64) = if x < 2 ^ 63 then x else x - 2 ^ 64 := by
  split
  · exact Int.bmod_eq_of_le (by omega) (by omega)
  · rw [← Int.sub_bmod_right]
    exact Int.bmod_eq_of_le (by omega) (by omega)

end GoInt
