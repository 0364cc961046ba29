/-
# Hashing from the middle of a message

A miner hashes the same message over and over with other last bytes.  It runs the compression
function over the leading blocks once, keeps the registers (the MIDSTATE), and pads the rest by hand.
This file has what such code is made of, over any compression function: words read from and written
to bytes with shifts, the words of a message by their offsets, and the digest of a message cut into
its blocks (`sha256With_eq`).
-/
import Moneu.Crypto.Sha256
import Mathlib.Algebra.Order.Ring.Nat
import Mathlib.Data.List.GetD
import Mathlib.Tactic.GCongr
import Mathlib.Tactic.NormNum

namespace Moneu.Sha256

/-! ## 1. Words and bytes -/

/-- `((uint32_t)b0 << 24) | ((uint32_t)b1 << 16) | ((uint32_t)b2 << 8) | (uint32_t)b3`. -/
def bigEndian (b0 b1 b2 b3 : UInt8) : UInt32 :=
  b0.toUInt32 <<< 24 ||| b1.toUInt32 <<< 16 ||| b2.toUInt32 <<< 8 ||| b3.toUInt32

def lowFirst (w : UInt32) : List UInt8 :=
  [w.toUInt8, (w >>> 8).toUInt8, (w >>> 16).toUInt8, (w >>> 24).toUInt8]

def highFirst (w : UInt32) : List UInt8 :=
  [(w >>> 24).toUInt8, (w >>> 16).toUInt8, (w >>> 8).toUInt8, w.toUInt8]

def byteSwap (w : UInt32) : UInt32 :=
  (w &&& 0x000000FF) <<< 24 ||| (w &&& 0x0000FF00) <<< 8 |||
    (w &&& 0x00FF0000) >>> 8 ||| (w &&& 0xFF000000) >>> 24

theorem toNat_byte_shiftLeft (b : UInt8) {k : Nat} (hk : k ≤ 24) :
    b.toNat <<< k % 2 ^ 32 = b.toNat * 2 ^ k := by
  rw [Nat.shiftLeft_eq]
  apply Nat.mod_eq_of_lt
  calc b.toNat * 2 ^ k < 2 ^ 8 * 2 ^ k := by
        have hb := b.toNat_lt
        gcongr
    _ ≤ 2 ^ 8 * 2 ^ 24 := by
        gcongr
        norm_num
    _ = 2 ^ 32 := by norm_num

/-- A multiple of a power of two, or'ed with something below that power, is a sum. -/
theorem mul_or_of_lt (a : Nat) {b k : Nat} (hb : b < 2 ^ k) : a * 2 ^ k ||| b = a * 2 ^ k + b := by
  rw [← Nat.shiftLeft_eq, ← Nat.shiftLeft_add_eq_or_of_lt hb]

theorem bigEndian_eq (b0 b1 b2 b3 : UInt8) : bigEndian b0 b1 b2 b3 = beWord b0 b1 b2 b3 := by
  have h1 := b1.toNat_lt
  have h2 := b2.toNat_lt
  have h3 := b3.toNat_lt
  apply UInt32.toNat_inj.1
  simp only [bigEndian, beWord, UInt32.toNat_or, UInt32.toNat_shiftLeft, UInt8.toNat_toUInt32,
    UInt32.toNat_ofNat', UInt32.reduceToNat, Nat.reduceMod, Nat.or_assoc]
  rw [toNat_byte_shiftLeft b0 (by decide), toNat_byte_shiftLeft b1 (by decide),
    toNat_byte_shiftLeft b2 (by decide), mul_or_of_lt b2.toNat h3,
    mul_or_of_lt b1.toNat (k := 16) (by omega), mul_or_of_lt b0.toNat (k := 24) (by omega)]
  have h0 := b0.toNat_lt
  omega

theorem and_byte (x k : Nat) : x &&& 255 <<< k = (x >>> k % 2 ^ 8) <<< k := by
  apply Nat.eq_of_testBit_eq
  intro i
  rw [← Nat.and_two_pow_sub_one_eq_mod]
  simp only [Nat.testBit_and, Nat.testBit_shiftLeft, Nat.testBit_shiftRight]
  by_cases hk : k ≤ i
  · simp [hk]
  · simp [hk]

theorem byteSwap_eq (w : UInt32) :
    byteSwap w = bigEndian w.toUInt8 (w >>> 8).toUInt8 (w >>> 16).toUInt8 (w >>> 24).toUInt8 := by
  have hw := w.toNat_lt
  have h0 : (w &&& 0x000000FF) <<< 24 = w.toUInt8.toUInt32 <<< 24 := by
    apply UInt32.toNat_inj.1
    have hmask := and_byte w.toNat 0
    simp only [Nat.shiftRight_zero, Nat.shiftLeft_zero] at hmask
    simp [hmask]
  have h1 : (w &&& 0x0000FF00) <<< 8 = (w >>> 8).toUInt8.toUInt32 <<< 16 := by
    apply UInt32.toNat_inj.1
    have hmask := and_byte w.toNat 8
    simp only [Nat.reduceShiftLeft] at hmask
    simp [hmask]
    omega
  have h2 : (w &&& 0x00FF0000) >>> 8 = (w >>> 16).toUInt8.toUInt32 <<< 8 := by
    apply UInt32.toNat_inj.1
    have hmask := and_byte w.toNat 16
    simp only [Nat.reduceShiftLeft] at hmask
    simp [hmask]
    omega
  have h3 : (w &&& 0xFF000000) >>> 24 = (w >>> 24).toUInt8.toUInt32 := by
    apply UInt32.toNat_inj.1
    have hmask := and_byte w.toNat 24
    simp only [Nat.reduceShiftLeft] at hmask
    simp [hmask]
  simp only [byteSwap, bigEndian, h0, h1, h2, h3]

theorem toNat_toUInt8_shiftRight (w : UInt32) {k : Nat} (hk : k < 32) :
    (w >>> UInt32.ofNat k).toUInt8 = UInt8.ofNat (w.toNat / 2 ^ k % 256) := by
  apply UInt8.toNat_inj.1
  simp [UInt32.toNat_shiftRight, Nat.mod_eq_of_lt hk, Nat.shiftRight_eq_div_pow]

theorem lowFirst_eq (w : UInt32) : lowFirst w = writeLE32 w := by
  have h0 := toNat_toUInt8_shiftRight w (show 0 < 32 by decide)
  have h1 := toNat_toUInt8_shiftRight w (show 8 < 32 by decide)
  have h2 := toNat_toUInt8_shiftRight w (show 16 < 32 by decide)
  have h3 := toNat_toUInt8_shiftRight w (show 24 < 32 by decide)
  simp only [lowFirst, writeLE32, leBytes, Nat.div_div_eq_div_mul, Nat.reduceMul]
  simp only [UInt32.reduceOfNat, UInt32.shiftRight_zero, Nat.reducePow, Nat.div_one] at h0 h1 h2 h3
  rw [h0, h1, h2, h3]

theorem highFirst_eq (w : UInt32) : highFirst w = FixedBytes.beDigits 4 w.toNat := by
  have h0 := toNat_toUInt8_shiftRight w (show 0 < 32 by decide)
  have h1 := toNat_toUInt8_shiftRight w (show 8 < 32 by decide)
  have h2 := toNat_toUInt8_shiftRight w (show 16 < 32 by decide)
  have h3 := toNat_toUInt8_shiftRight w (show 24 < 32 by decide)
  simp only [highFirst, FixedBytes.beDigits, Nat.div_div_eq_div_mul, Nat.reduceMul,
    List.nil_append, List.cons_append]
  simp only [UInt32.reduceOfNat, UInt32.shiftRight_zero, Nat.reducePow, Nat.div_one] at h0 h1 h2 h3
  rw [h0, h1, h2, h3]

theorem bigEndian_highFirst (w : UInt32) :
    bigEndian (w >>> 24).toUInt8 (w >>> 16).toUInt8 (w >>> 8).toUInt8 w.toUInt8 = w := by
  have hw := w.toNat_lt
  rw [bigEndian_eq, beWord]
  apply UInt32.toNat_inj.1
  simp [UInt32.toNat_shiftRight, Nat.shiftRight_eq_div_pow]
  omega

/-! ## 2. The words of a message -/

def wordAt (buf : List UInt8) (o : Nat) : UInt32 :=
  bigEndian (buf.getD o 0) (buf.getD (o + 1) 0) (buf.getD (o + 2) 0) (buf.getD (o + 3) 0)

theorem wordAt_drop (buf : List UInt8) (m o : Nat) : wordAt (buf.drop m) o = wordAt buf (m + o) := by
  simp only [wordAt, List.getD_eq_getElem?_getD, List.getElem?_drop, Nat.add_assoc]

theorem wordAt_append {as : List UInt8} (bs : List UInt8) {o : Nat} (h : o + 3 < as.length) :
    wordAt (as ++ bs) o = wordAt as o := by
  simp only [wordAt, List.getD_append _ _ _ _ (show o + 3 < as.length from h),
    List.getD_append _ _ _ _ (show o + 2 < as.length by omega),
    List.getD_append _ _ _ _ (show o + 1 < as.length by omega),
    List.getD_append _ _ _ _ (show o < as.length by omega)]

theorem words_eq_map : ∀ {n : Nat} (buf : List UInt8), buf.length = 4 * n →
    words buf = (List.range n).map fun i => wordAt buf (i * 4)
  | 0, [], _ => rfl
  | n + 1, b0 :: b1 :: b2 :: b3 :: rest, h => by
    have hrest := words_eq_map (n := n) rest (by simp at h; omega)
    have hnext : ∀ i, wordAt (b0 :: b1 :: b2 :: b3 :: rest) ((i + 1) * 4) = wordAt rest (i * 4) := by
      intro i
      rw [show rest = (b0 :: b1 :: b2 :: b3 :: rest).drop 4 from rfl, wordAt_drop]
      congr 1
      omega
    have hhead : wordAt (b0 :: b1 :: b2 :: b3 :: rest) (0 * 4) = beWord b0 b1 b2 b3 :=
      bigEndian_eq b0 b1 b2 b3
    rw [words, hrest, List.range_succ_eq_map, List.map_cons, List.map_map, hhead]
    exact congrArg _ (List.map_congr_left fun i _ => (hnext i).symm)

theorem words_append : ∀ {n : Nat} (as bs : List UInt8), as.length = 4 * n →
    words (as ++ bs) = words as ++ words bs
  | 0, [], _, _ => rfl
  | n + 1, b0 :: b1 :: b2 :: b3 :: rest, bs, h => by
    have hrest := words_append (n := n) rest bs (by simp at h; omega)
    simp only [List.cons_append, words, hrest]

/-! ## 3. The digest over any compression function -/

section Compress

variable (compress : State → List UInt32 → State)

def blocksWith : Nat → List UInt32 → State → State
  | 0, _, s => s
  | n + 1, ws, s => blocksWith n (ws.drop 16) (compress s (ws.take 16))

def sha256With (msg : List UInt8) : Bytes32 :=
  let padded := msg ++ padding msg.length
  let s := blocksWith compress (padded.length / 64) (words padded) initialHashValue
  ⟨s.digest, s.length_digest⟩

/-- **Three blocks**: the digest of a message whose padded words are three blocks is that of the
registers after the third, from the registers after the first. -/
theorem sha256With_eq {msg : List UInt8} {block1 block2 block3 : List UInt32}
    (hwords : words (msg ++ padding msg.length) = block1 ++ (block2 ++ block3))
    (hlen : (msg ++ padding msg.length).length / 64 = 3) (h1 : block1.length = 16)
    (h2 : block2.length = 16) (h3 : block3.length = 16) :
    (sha256With compress msg).data =
      (compress (compress (compress initialHashValue block1) block2) block3).digest := by
  simp only [sha256With, hlen, hwords, blocksWith, List.take_left' h1, List.drop_left' h1,
    List.take_left' h2, List.drop_left' h2]
  rw [List.take_of_length_le (by omega)]

end Compress

theorem blocks_eq (n : Nat) : ∀ (ws : List UInt32) (s : State),
    blocks n ws s = blocksWith transform n ws s := by
  induction n with
  | zero => exact fun _ _ => rfl
  | succ n ih => exact fun ws s => ih _ _

/-- With the compression function of the source, the digest is that of the source. -/
theorem sha256With_transform (msg : List UInt8) : sha256With transform msg = sha256 msg := by
  simp only [sha256With, sha256, blocks_eq]

end Moneu.Sha256
