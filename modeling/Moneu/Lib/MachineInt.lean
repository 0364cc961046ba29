/-
# Sums of machine integers that are what they should be

A `uint64_t` or `int64_t` sum is the integer sum unless it wraps around, and code that cares
compares before or after the addition.  Each lemma here takes one such comparison and returns the
equation between the machine sum and the integer sum.
-/
import Mathlib.Algebra.Ring.Int.Defs
import Mathlib.Algebra.Ring.Nat
import Mathlib.Data.Int.Basic

namespace Moneu.MachineInt

variable {a b : Int64}

theorem toInt_zero : (0 : Int64).toInt = 0 := rfl

theorem toInt_maxValue : Int64.maxValue.toInt = 2 ^ 63 - 1 := rfl

theorem toInt_nonneg (h : 0 ≤ a) : 0 ≤ a.toInt := by
  rwa [Int64.le_iff_toInt_le, toInt_zero] at h

theorem toNat_ofNat {n : Nat} (h : n < 2 ^ 64) : (UInt64.ofNat n).toNat = n :=
  (UInt64.toNat_ofNat' ..).trans (Nat.mod_eq_of_lt h)

/-- `sum < a` is how unsigned code finds out that a sum wrapped around. -/
theorem toNat_add_of_not_lt {a b : UInt64} (h : ¬ a + b < a) :
    (a + b).toNat = a.toNat + b.toNat := by
  have ha := a.toNat_lt
  have hb := b.toNat_lt
  rw [UInt64.lt_iff_toNat_lt, UInt64.toNat_add] at h
  rw [UInt64.toNat_add]
  omega

theorem toInt_add_of_fits (hlow : -2 ^ 63 ≤ a.toInt + b.toInt) (hhigh : a.toInt + b.toInt < 2 ^ 63) :
    (a + b).toInt = a.toInt + b.toInt := by
  rw [Int64.toInt_add, Int.bmod_def]
  omega

theorem toInt_sub_of_fits (hlow : -2 ^ 63 ≤ a.toInt - b.toInt) (hhigh : a.toInt - b.toInt < 2 ^ 63) :
    (a - b).toInt = a.toInt - b.toInt := by
  rw [Int64.toInt_sub, Int.bmod_def]
  omega

theorem toInt_mul_of_fits (hlow : -2 ^ 63 ≤ a.toInt * b.toInt) (hhigh : a.toInt * b.toInt < 2 ^ 63) :
    (a * b).toInt = a.toInt * b.toInt := by
  rw [Int64.toInt_mul, Int.bmod_def]
  omega

theorem toInt_add_of_le_sub (ha : 0 ≤ a) (hb : 0 ≤ b) (h : ¬ a > Int64.maxValue - b) :
    (a + b).toInt = a.toInt + b.toInt := by
  have ha' := toInt_nonneg ha
  have hb' := toInt_nonneg hb
  have hlt := b.toInt_lt
  rw [gt_iff_lt, Int64.lt_iff_toInt_lt, Int64.toInt_sub, Int.bmod_def, toInt_maxValue] at h
  exact toInt_add_of_fits (by omega) (by omega)

theorem toNat_toUInt64 (h : 0 ≤ a) : (a.toUInt64.toNat : Int) = a.toInt := by
  have hnonneg := toInt_nonneg h
  have hlt := a.toInt_lt
  have hbits : a.toInt = (a.toUInt64.toNat : Int).bmod (2 ^ 64) := BitVec.toInt_eq_toNat_bmod _
  have hnat := a.toUInt64.toNat_lt
  rw [Int.bmod_def] at hbits
  omega

theorem toInt_shiftRight_sixteen (a : Int64) : (a >>> 16).toInt = a.toInt / 65536 := by
  change (a.toBitVec.sshiftRight' ((16 : Int64).toBitVec.smod 64)).toInt = _
  rw [BitVec.sshiftRight_eq', BitVec.toInt_sshiftRight, Int.shiftRight_eq_div_pow]
  rfl

end Moneu.MachineInt
