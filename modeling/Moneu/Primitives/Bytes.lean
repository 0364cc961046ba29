/-
# Byte strings of a fixed length and little-endian numbers

`std::array<uint8_t, N>` is a byte list that carries its length (`FixedBytes N`), and
`std::vector<uint8_t>` is a plain `List UInt8`.  `WriteLE32`, `WriteLE64` and the readers
that go with them occur as static functions in five source files with the same meaning:
byte `i` is `(value >> 8 * i) & 0xFF`.  They are stated here once, over any number of bytes.
-/
import Mathlib.Data.List.Basic
import Mathlib.Tactic.Linarith

namespace Moneu

/-! ## 1. Arrays of bytes -/

/-- `std::array<uint8_t, n>`. -/
structure FixedBytes (n : Nat) where
  data : List UInt8
  size_eq : data.length = n
  deriving DecidableEq

abbrev Bytes32 := FixedBytes 32

instance Bytes32.lawfulBEq : LawfulBEq Bytes32 := inferInstance

abbrev Bytes64 := FixedBytes 64

namespace FixedBytes

variable {n : Nat}

@[ext]
theorem ext {a b : FixedBytes n} (h : a.data = b.data) : a = b := by
  cases a; cases b; simp_all

@[simp]
theorem length_data (a : FixedBytes n) : a.data.length = n := a.size_eq

def zero : FixedBytes n := ⟨List.replicate n 0, List.length_replicate⟩

instance : Inhabited (FixedBytes n) := ⟨zero⟩

/-- The loop `for (uint8_t b : hash) if (b != 0) { allZero = false; break; }`. -/
def isZero (a : FixedBytes n) : Bool := a.data.all (· == 0)

theorem isZero_iff (a : FixedBytes n) : a.isZero = true ↔ a = zero := by
  unfold isZero
  rw [List.all_eq_true]
  constructor
  · intro h
    apply ext
    apply List.eq_replicate_of_mem ?_ |>.trans (by rw [a.size_eq]; rfl)
    intro b hb
    simpa using h b hb
  · rintro rfl b hb
    simpa using List.eq_of_mem_replicate hb

/-- The `n` bytes of a buffer that starts with at least `n` bytes (`std::memcpy`). -/
def take (n : Nat) (bytes : List UInt8) (h : n ≤ bytes.length) : FixedBytes n :=
  ⟨bytes.take n, by simp [h]⟩

/-- Big-endian digits of a number in base 256; the last byte is the least significant one. -/
def beDigits : Nat → Nat → List UInt8
  | 0, _ => []
  | k + 1, v => beDigits k (v / 256) ++ [UInt8.ofNat (v % 256)]

theorem length_beDigits : ∀ k v, (beDigits k v).length = k
  | 0, _ => rfl
  | k + 1, v => by simp [beDigits, length_beDigits k]

/-- The array whose bytes, read as a big-endian number, are `v`: hexadecimal literals of the
source (`HexToBytes32`) are written as `ofNat 0x…`. -/
def ofNat (n v : Nat) : FixedBytes n := ⟨beDigits n v, length_beDigits n v⟩

end FixedBytes

/-! ## 2. Little-endian numbers -/

/-- The `n` low bytes of `v`, least significant first. -/
def leBytes : Nat → Nat → List UInt8
  | 0, _ => []
  | n + 1, v => UInt8.ofNat (v % 256) :: leBytes n (v / 256)

/-- The number whose little-endian bytes are given. -/
def leValue : List UInt8 → Nat
  | [] => 0
  | b :: bs => b.toNat + 256 * leValue bs

@[simp]
theorem length_leBytes : ∀ n v, (leBytes n v).length = n
  | 0, _ => rfl
  | n + 1, v => by simp [leBytes, length_leBytes n]

theorem leValue_leBytes : ∀ n v, v < 256 ^ n → leValue (leBytes n v) = v
  | 0, v, h => by simp at h; simp [leBytes, leValue, h]
  | n + 1, v, h => by
    have hdiv : v / 256 < 256 ^ n := by
      rw [Nat.div_lt_iff_lt_mul (by decide)]
      calc v < 256 ^ (n + 1) := h
        _ = 256 ^ n * 256 := by rw [Nat.pow_succ]
    have hbyte : (UInt8.ofNat (v % 256)).toNat = v % 256 := by
      simp [UInt8.toNat_ofNat']
    simp only [leBytes, leValue, hbyte, leValue_leBytes n _ hdiv]
    omega

theorem leBytes_leValue : ∀ bytes : List UInt8, leBytes bytes.length (leValue bytes) = bytes
  | [] => rfl
  | b :: bytes => by
    have hb := b.toNat_lt
    have hlow : (b.toNat + 256 * leValue bytes) % 256 = b.toNat := by omega
    have hhigh : (b.toNat + 256 * leValue bytes) / 256 = leValue bytes := by omega
    rw [List.length_cons, leBytes, leValue, hlow, hhigh, leBytes_leValue bytes, UInt8.ofNat_toNat]

theorem leValue_lt : ∀ bytes : List UInt8, leValue bytes < 256 ^ bytes.length
  | [] => by decide
  | b :: bytes => by
    have hb := b.toNat_lt
    have hrest := leValue_lt bytes
    rw [List.length_cons, leValue, Nat.pow_succ]
    omega

def writeLE32 (value : UInt32) : List UInt8 := leBytes 4 value.toNat

def writeLE64 (value : UInt64) : List UInt8 := leBytes 8 value.toNat

/-- `ReadLE32` at the head of the buffer (the callers have checked the length). -/
def readLE32 (data : List UInt8) : UInt32 := UInt32.ofNat (leValue (data.take 4))

/-- `ReadLE64` at the head of the buffer (the callers have checked the length). -/
def readLE64 (data : List UInt8) : UInt64 := UInt64.ofNat (leValue (data.take 8))

@[simp]
theorem length_writeLE32 (v : UInt32) : (writeLE32 v).length = 4 := length_leBytes 4 _

@[simp]
theorem length_writeLE64 (v : UInt64) : (writeLE64 v).length = 8 := length_leBytes 8 _

theorem writeLE32_readLE32 {data : List UInt8} (h : 4 ≤ data.length) :
    writeLE32 (readLE32 data) = data.take 4 := by
  have hlen : (data.take 4).length = 4 := by rw [List.length_take]; omega
  have hlt := leValue_lt (data.take 4)
  rw [hlen] at hlt
  have hbytes := leBytes_leValue (data.take 4)
  rw [hlen] at hbytes
  rw [writeLE32, readLE32, UInt32.toNat_ofNat', Nat.mod_eq_of_lt (by omega), hbytes]

theorem writeLE64_readLE64 {data : List UInt8} (h : 8 ≤ data.length) :
    writeLE64 (readLE64 data) = data.take 8 := by
  have hlen : (data.take 8).length = 8 := by rw [List.length_take]; omega
  have hlt := leValue_lt (data.take 8)
  rw [hlen] at hlt
  have hbytes := leBytes_leValue (data.take 8)
  rw [hlen] at hbytes
  rw [writeLE64, readLE64, UInt64.toNat_ofNat', Nat.mod_eq_of_lt (by omega), hbytes]

@[simp]
theorem readLE32_writeLE32 (v : UInt32) (rest : List UInt8) :
    readLE32 (writeLE32 v ++ rest) = v := by
  unfold readLE32
  rw [List.take_left' (length_writeLE32 v), writeLE32, leValue_leBytes 4 _ v.toNat_lt]
  exact UInt32.ofNat_toNat

@[simp]
theorem readLE64_writeLE64 (v : UInt64) (rest : List UInt8) :
    readLE64 (writeLE64 v ++ rest) = v := by
  unfold readLE64
  rw [List.take_left' (length_writeLE64 v), writeLE64, leValue_leBytes 8 _ v.toNat_lt]
  exact UInt64.ofNat_toNat

end Moneu
