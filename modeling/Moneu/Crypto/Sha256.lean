/-
# SHA-256

`sha256_Init`, `sha256_Update` and `sha256_Final` of `crypto/sha2.c`, used by every hash of the
node.  The context buffers a partial block between two `sha256_Update` calls, so a hash of
several pieces is the hash of their concatenation; the model takes the whole message at once,
pads it as `sha256_Final` does, and folds `sha256_Transform` over its blocks.

`K256` and the initial state are the tables of the source.
-/
import Moneu.Primitives.Bytes

namespace Moneu

namespace Sha256

/-! ## 1. The compression function -/

def K256 : List UInt32 :=
  [0x428a2f98, 0x71374491, 0xb5c0fbcf, 0xe9b5dba5, 0x3956c25b, 0x59f111f1,
   0x923f82a4, 0xab1c5ed5, 0xd807aa98, 0x12835b01, 0x243185be, 0x550c7dc3,
   0x72be5d74, 0x80deb1fe, 0x9bdc06a7, 0xc19bf174, 0xe49b69c1, 0xefbe4786,
   0x0fc19dc6, 0x240ca1cc, 0x2de92c6f, 0x4a7484aa, 0x5cb0a9dc, 0x76f988da,
   0x983e5152, 0xa831c66d, 0xb00327c8, 0xbf597fc7, 0xc6e00bf3, 0xd5a79147,
   0x06ca6351, 0x14292967, 0x27b70a85, 0x2e1b2138, 0x4d2c6dfc, 0x53380d13,
   0x650a7354, 0x766a0abb, 0x81c2c92e, 0x92722c85, 0xa2bfe8a1, 0xa81a664b,
   0xc24b8b70, 0xc76c51a3, 0xd192e819, 0xd6990624, 0xf40e3585, 0x106aa070,
   0x19a4c116, 0x1e376c08, 0x2748774c, 0x34b0bcb5, 0x391c0cb3, 0x4ed8aa4a,
   0x5b9cca4f, 0x682e6ff3, 0x748f82ee, 0x78a5636f, 0x84c87814, 0x8cc70208,
   0x90befffa, 0xa4506ceb, 0xbef9a3f7, 0xc67178f2]

/-- The eight registers `a … h`. -/
structure State where
  a : UInt32
  b : UInt32
  c : UInt32
  d : UInt32
  e : UInt32
  f : UInt32
  g : UInt32
  h : UInt32

def initialHashValue : State :=
  ⟨0x6a09e667, 0xbb67ae85, 0x3c6ef372, 0xa54ff53a,
   0x510e527f, 0x9b05688c, 0x1f83d9ab, 0x5be0cd19⟩

def rotr32 (b : UInt32) (x : UInt32) : UInt32 := (x >>> b) ||| (x <<< (32 - b))

def ch (x y z : UInt32) : UInt32 := (x &&& y) ^^^ (~~~x &&& z)

def maj (x y z : UInt32) : UInt32 := (x &&& y) ^^^ (x &&& z) ^^^ (y &&& z)

def bigSigma0 (x : UInt32) : UInt32 := rotr32 2 x ^^^ rotr32 13 x ^^^ rotr32 22 x

def bigSigma1 (x : UInt32) : UInt32 := rotr32 6 x ^^^ rotr32 11 x ^^^ rotr32 25 x

def sigma0 (x : UInt32) : UInt32 := rotr32 7 x ^^^ rotr32 18 x ^^^ (x >>> 3)

def sigma1 (x : UInt32) : UInt32 := rotr32 17 x ^^^ rotr32 19 x ^^^ (x >>> 10)

/-- One round with the round constant `k` and the schedule word `w`. -/
def round (s : State) (k w : UInt32) : State :=
  let t1 := s.h + bigSigma1 s.e + ch s.e s.f s.g + k + w
  let t2 := bigSigma0 s.a + maj s.a s.b s.c
  ⟨t1 + t2, s.a, s.b, s.c, s.d + t1, s.e, s.f, s.g⟩

/-- The ring buffer `W256` from the slot of the current round on: the word `j` rounds later is
entry `j`, and the word expanded into the slot is moved to the end. -/
def expand : List UInt32 → UInt32
  | w0 :: w1 :: _ :: _ :: _ :: _ :: _ :: _ :: _ :: w9 :: _ :: _ :: _ :: _ :: w14 :: _ =>
    w0 + (sigma1 w14 + w9 + sigma0 w1)
  | _ => 0

/-- The rounds of one transform: `w` holds the next sixteen schedule words. -/
def rounds : List UInt32 → List UInt32 → State → State
  | [], _, s => s
  | _, [], s => s
  | k :: ks, w :: ws, s => rounds ks (ws ++ [expand (w :: ws)]) (round s k w)

def transform (s : State) (data : List UInt32) : State :=
  let t := rounds K256 data s
  ⟨s.a + t.a, s.b + t.b, s.c + t.c, s.d + t.d, s.e + t.e, s.f + t.f, s.g + t.g, s.h + t.h⟩

/-! ## 2. Padding and the digest -/

/-- A big-endian 32-bit word (`REVERSE32` on a little-endian host). -/
def beWord (b0 b1 b2 b3 : UInt8) : UInt32 :=
  UInt32.ofNat (((b0.toNat * 256 + b1.toNat) * 256 + b2.toNat) * 256 + b3.toNat)

/-- The bytes of a message as big-endian words. -/
def words : List UInt8 → List UInt32
  | b0 :: b1 :: b2 :: b3 :: rest => beWord b0 b1 b2 b3 :: words rest
  | _ => []

theorem length_words : ∀ {n : Nat} (bytes : List UInt8), bytes.length = 4 * n →
    (words bytes).length = n
  | 0, [], _ => rfl
  | n + 1, _ :: _ :: _ :: _ :: bytes, h => by
    rw [words, List.length_cons, length_words bytes (n := n) (by simp at h; omega)]

/-- The padding of `sha256_Final`: a one bit, zeros up to the last eight bytes of a block, and
the bit count. -/
def padding (len : Nat) : List UInt8 :=
  0x80 :: List.replicate ((119 - len % 64) % 64) 0 ++ FixedBytes.beDigits 8 (8 * len)

/-- `sha256_Transform` over the blocks of the padded message. -/
def blocks : Nat → List UInt32 → State → State
  | 0, _, s => s
  | n + 1, ws, s => blocks n (ws.drop 16) (transform s (ws.take 16))

def State.digest (s : State) : List UInt8 :=
  [s.a, s.b, s.c, s.d, s.e, s.f, s.g, s.h].flatMap fun w => FixedBytes.beDigits 4 w.toNat

theorem State.length_digest (s : State) : s.digest.length = 32 := by
  simp [State.digest, FixedBytes.length_beDigits]

end Sha256

/-- `sha256_Init`, `sha256_Update` of the message and `sha256_Final`. -/
def sha256 (msg : List UInt8) : Bytes32 :=
  let padded := msg ++ Sha256.padding msg.length
  let s := Sha256.blocks (padded.length / 64) (Sha256.words padded) Sha256.initialHashValue
  ⟨s.digest, s.length_digest⟩

end Moneu
