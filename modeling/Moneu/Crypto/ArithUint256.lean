/-
# 256-bit arithmetic

`arith_uint256` of `crypto/arith_uint256.cpp`, with a `BitVec 256` for the eight limbs: the limb
loops of the source compute addition, multiplication, division and shifts modulo `2 ^ 256`.
-/
import Mathlib.Tactic.Ring
import Moneu.Primitives.Bytes

namespace Moneu

abbrev ArithUint256 := BitVec 256

namespace ArithUint256

/-- The result of `SetCompact`: the value and the two flags. -/
structure Compact where
  value : ArithUint256
  negative : Bool
  overflow : Bool

/-- `SetCompact`; a mantissa of at most three bytes is shifted BEFORE the flags are computed. -/
def setCompact (nCompact : UInt32) : Compact :=
  let nSize := (nCompact >>> 24).toNat
  let nWord := nCompact &&& 0x007fffff
  let nWord := if nSize ≤ 3 then nWord >>> UInt32.ofNat (8 * (3 - nSize)) else nWord
  { value :=
      if nSize ≤ 3 then BitVec.ofNat 256 nWord.toNat
      else BitVec.ofNat 256 nWord.toNat <<< (8 * (nSize - 3))
    negative := nWord ≠ 0 && (nCompact &&& 0x00800000) ≠ 0
    overflow := nWord ≠ 0 && (nSize > 34 || (nWord > 0xff && nSize > 33) ||
      (nWord > 0xffff && nSize > 32)) }

/-- `bits()`: the position of the highest set bit, counted from one. -/
def bits (x : ArithUint256) : Nat := if x = 0 then 0 else Nat.log2 x.toNat + 1

def getLow64 (x : ArithUint256) : UInt64 := UInt64.ofNat x.toNat

def getCompact (x : ArithUint256) : UInt32 :=
  let nSize := (bits x + 7) / 8
  let nCompact : UInt32 :=
    if nSize ≤ 3 then (getLow64 x <<< UInt64.ofNat (8 * (3 - nSize))).toUInt32
    else (getLow64 (x >>> (8 * (nSize - 3)))).toUInt32
  if nCompact &&& 0x00800000 ≠ 0 then (nCompact >>> 8) ||| (UInt32.ofNat (nSize + 1) <<< 24)
  else nCompact ||| (UInt32.ofNat nSize <<< 24)

def beValue (bytes : List UInt8) : Nat := bytes.foldl (fun acc b => acc * 256 + b.toNat) 0

def ofBytes32 (b : Bytes32) : ArithUint256 := BitVec.ofNat 256 (beValue b.data)

def toBytes32 (a : ArithUint256) : Bytes32 := FixedBytes.ofNat 32 a.toNat

/-! ## Bytes as a number -/

open FixedBytes

theorem beValue_append (xs ys : List UInt8) :
    beValue (xs ++ ys) = beValue xs * 256 ^ ys.length + beValue ys := by
  have hfold : ∀ (ys : List UInt8) (acc : Nat), ys.foldl (fun acc b => acc * 256 + b.toNat) acc =
      acc * 256 ^ ys.length + beValue ys := by
    intro ys
    induction ys with
    | nil => simp [beValue]
    | cons y ys ih =>
      intro acc
      rw [beValue, List.foldl_cons, List.foldl_cons, ih, ih, List.length_cons, Nat.pow_succ]
      ring
  rw [beValue, List.foldl_append, hfold]
  rfl

theorem beValue_cons (x : UInt8) (xs : List UInt8) :
    beValue (x :: xs) = x.toNat * 256 ^ xs.length + beValue xs := by
  have hone : beValue [x] = x.toNat := by simp [beValue]
  rw [← List.singleton_append, beValue_append, hone]

theorem beValue_beDigits : ∀ (k v : Nat), beValue (beDigits k v) = v % 256 ^ k
  | 0, v => by simp [beDigits, beValue, Nat.mod_one]
  | k + 1, v => by
    have hlast : beValue [UInt8.ofNat (v % 256)] = v % 256 := by simp [beValue]
    rw [beDigits, beValue_append, beValue_beDigits k, hlast, List.length_singleton, Nat.pow_one,
      Nat.pow_succ, Nat.mul_comm (256 ^ k), Nat.mod_mul]
    omega

theorem beValue_lt (bytes : List UInt8) : beValue bytes < 256 ^ bytes.length := by
  induction bytes with
  | nil => simp [beValue]
  | cons b bytes ih =>
    have hb := b.toNat_lt
    rw [beValue_cons, List.length_cons, Nat.pow_succ, Nat.mul_comm (256 ^ bytes.length)]
    nlinarith

end ArithUint256

end Moneu
