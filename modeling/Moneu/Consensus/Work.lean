/-
# Chain work as a number

`CompareWork` compares the bytes of two totals and `AddChainWork` adds modulo `2 ^ 256`.  On the numbers
that the bytes spell, the one is the order of the naturals and the other is addition as long as
nothing overflows.
-/
import Moneu.Consensus.Pow

namespace Moneu

open ArithUint256 NetParams

def workValue (w : Bytes32) : Nat := beValue w.data

theorem workValue_ofNat {n : Nat} (h : n < 2 ^ 256) : workValue (FixedBytes.ofNat 32 n) = n := by
  change beValue (FixedBytes.beDigits 32 n) = n
  rw [beValue_beDigits]
  exact Nat.mod_eq_of_lt h

/-! ## 1. The order -/

/-- **`memcmp` compares the numbers that two buffers of one length spell.** -/
theorem memcmp_eq : ∀ {as bs : List UInt8}, as.length = bs.length →
    memcmp as bs = compare (beValue as) (beValue bs)
  | [], [], _ => rfl
  | a :: as, b :: bs, h => by
    have hlen : as.length = bs.length := by simpa using h
    have ih := memcmp_eq hlen
    have ha := beValue_lt as
    have hb := beValue_lt bs
    rw [hlen] at ha
    rw [memcmp, beValue_cons, beValue_cons, hlen]
    generalize 256 ^ bs.length = m at ha hb
    by_cases hlt : a < b
    · have hle : a.toNat + 1 ≤ b.toNat := UInt8.lt_iff_toNat_lt.mp hlt
      have hmul := Nat.mul_le_mul_right m hle
      rw [if_pos hlt, eq_comm, Nat.compare_eq_lt]
      rw [Nat.add_mul] at hmul
      omega
    · by_cases hgt : b < a
      · have hle : b.toNat + 1 ≤ a.toNat := UInt8.lt_iff_toNat_lt.mp hgt
        have hmul := Nat.mul_le_mul_right m hle
        rw [if_neg hlt, if_pos hgt, eq_comm, Nat.compare_eq_gt]
        rw [Nat.add_mul] at hmul
        omega
      · have heq : a.toNat = b.toNat := by
          rw [UInt8.lt_iff_toNat_lt] at hlt hgt
          omega
        rw [if_neg hlt, if_neg hgt, ih, heq]
        rcases Nat.lt_trichotomy (beValue as) (beValue bs) with h | h | h
        · rw [Nat.compare_eq_lt.mpr h, Nat.compare_eq_lt.mpr (by omega)]
        · rw [h, Nat.compare_eq_eq.mpr rfl, Nat.compare_eq_eq.mpr rfl]
        · rw [Nat.compare_eq_gt.mpr h, Nat.compare_eq_gt.mpr (by omega)]

/-- **`CompareWork` is the order of the numbers.** -/
theorem compareWork_eq (a b : Bytes32) : compareWork a b = compare (workValue a) (workValue b) :=
  memcmp_eq (by rw [FixedBytes.length_data, FixedBytes.length_data])

theorem compareWork_gt {a b : Bytes32} : compareWork a b = .gt ↔ workValue b < workValue a := by
  rw [compareWork_eq, Nat.compare_eq_gt]

/-! ## 2. Adding -/

theorem toNat_add_ofBytes32 (a b : Bytes32) :
    (ofBytes32 a + ofBytes32 b).toNat = (workValue a + workValue b) % 2 ^ 256 := by
  rw [BitVec.toNat_add, ofBytes32, ofBytes32, BitVec.toNat_ofNat, BitVec.toNat_ofNat]
  exact (Nat.add_mod ..).symm

theorem workValue_addChainWork (w : Bytes32) (bits : UInt32) : workValue (addChainWork w bits) =
    (workValue w + workValue (getBlockProof bits)) % 2 ^ 256 := by
  rw [addChainWork, toBytes32, workValue_ofNat (BitVec.isLt _), toNat_add_ofBytes32]

end Moneu
