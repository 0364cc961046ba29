/-
# Signature checks and their cache

`SecretKey::Verify` refuses a signature whose scalar is not below the group order, looks the call up in a
global cache of accepted calls, and asks `ed25519_sign_open` only on a miss.  The cache has 250000 places; when
it is full, a new entry takes the place of the one with the smallest key.

Two things are to be seen: the loop that compares the scalar with the group order has no branch and works with
two masks (`isCanonicalSignatureScalar_iff`), and the cache does not show (`verify_valid_iff`): whatever calls
came before, in whatever order their two critical sections ran, the answer is that of the scalar check and of
`ed25519_sign_open` alone.
-/
import Moneu.Crypto.Sha256Nat
import Moneu.Lib.Memo
import Moneu.Primitives.Transaction

namespace Moneu

/-! ## 1. The scalar -/

namespace SecretKey

/-- `static const uint8_t L[32]`: the group order, least significant byte first. -/
def L : List UInt8 :=
  [0xed, 0xd3, 0xf5, 0x5c, 0x1a, 0x63, 0x12, 0x58,
   0xd6, 0x9c, 0xf7, 0xa2, 0xde, 0xf9, 0xde, 0x14,
   0x00, 0x00, 0x00, 0x00, 0x00, 0x00, 0x00, 0x00,
   0x00, 0x00, 0x00, 0x00, 0x00, 0x00, 0x00, 0x10]

def groupOrder : Nat := 2 ^ 252 + 27742317777372353535851937790883648493

theorem leValue_L : leValue L = groupOrder := by decide

/-- One round of the loop, on the bytes `S[i]` and `L[i]` and the pair `(borrowed, stillEqual)`. -/
def compareByte (s l : UInt8) (acc : UInt8 × UInt8) : UInt8 × UInt8 :=
  let diff : Int := (s.toNat : Int) - (l.toNat : Int)
  let borrowed := acc.1 ||| (UInt8.ofInt (diff >>> (8 : Nat)) &&& acc.2)
  let x : Int := ((s ^^^ l).toNat : Int) - 1
  let stillEqual := acc.2 &&& UInt8.ofInt (x >>> (8 : Nat))
  (borrowed, stillEqual)

/-- `for (int i = 31; i >= 0; --i)`: the last byte comes first. -/
def compareBytes (pairs : List (UInt8 × UInt8)) : UInt8 × UInt8 :=
  pairs.foldr (fun p acc => compareByte p.1 p.2 acc) (0, 1)

def isCanonicalSignatureScalar (sig : Bytes64) : Bool :=
  (compareBytes ((sig.data.drop 32).zip L)).1 != 0

theorem shiftRight_eight {x : Int} (hlow : -256 ≤ x) (hhigh : x < 256) :
    x >>> (8 : Nat) = if x < 0 then -1 else 0 := by
  rw [Int.shiftRight_eq_div_pow]
  split <;> omega

theorem lessMask (s l : UInt8) :
    UInt8.ofInt (((s.toNat : Int) - (l.toNat : Int)) >>> (8 : Nat)) = if s < l then 255 else 0 := by
  have hs := s.toNat_lt
  have hl := l.toNat_lt
  rw [shiftRight_eight (by omega) (by omega)]
  by_cases hlt : s < l
  · have hneg := UInt8.lt_iff_toNat_lt.mp hlt
    rw [if_pos hlt, if_pos (by omega)]
    rfl
  · rw [UInt8.lt_iff_toNat_lt] at hlt
    rw [if_neg (by omega), if_neg (by rwa [UInt8.lt_iff_toNat_lt])]
    rfl

theorem equalMask (s l : UInt8) :
    UInt8.ofInt ((((s ^^^ l).toNat : Int) - 1) >>> (8 : Nat)) = if s = l then 255 else 0 := by
  have hx := (s ^^^ l).toNat_lt
  rw [shiftRight_eight (by omega) (by omega)]
  by_cases heq : s = l
  · subst heq
    rw [if_pos rfl, UInt8.xor_self]
    rfl
  · have hne : (s ^^^ l).toNat ≠ 0 := by
      intro hzero
      exact heq (UInt8.xor_eq_zero_iff.mp (UInt8.toNat_inj.mp hzero))
    rw [if_neg heq, if_neg (by omega)]
    rfl

/-- What the pair says of two numbers. -/
def masks (s l : Nat) : UInt8 × UInt8 := (if s < l then 1 else 0, if s = l then 1 else 0)

theorem compareByte_masks (s l : UInt8) (hs hl : Nat) :
    compareByte s l (masks hs hl) = masks (s.toNat + 256 * hs) (l.toNat + 256 * hl) := by
  have hslt := s.toNat_lt
  have hllt := l.toNat_lt
  have hless : (255 &&& 1 : UInt8) = 1 := by decide
  have hequal : (1 &&& 255 : UInt8) = 1 := by decide
  simp only [compareByte, lessMask, equalMask, masks, UInt8.lt_iff_toNat_lt, ← UInt8.toNat_inj]
  rcases Nat.lt_trichotomy hs hl with h | h | h
  · simp [h, h.ne, show s.toNat + 256 * hs < l.toNat + 256 * hl by omega,
      show ¬ s.toNat + 256 * hs = l.toNat + 256 * hl by omega]
  · subst h
    rcases Nat.lt_trichotomy s.toNat l.toNat with h' | h' | h'
    · simp [h', h'.ne, hless]
    · simp [h', hequal]
    · simp [h'.ne', Nat.not_lt_of_gt h']
  · simp [h.ne', Nat.not_lt_of_gt h, show ¬ s.toNat + 256 * hs < l.toNat + 256 * hl by omega,
      show ¬ s.toNat + 256 * hs = l.toNat + 256 * hl by omega]

theorem compareBytes_eq : ∀ ss ls : List UInt8, ss.length = ls.length →
    compareBytes (ss.zip ls) = masks (leValue ss) (leValue ls)
  | [], [], _ => rfl
  | s :: ss, l :: ls, h => by
    have ih := compareBytes_eq ss ls (by simpa using h)
    rw [List.zip_cons_cons, compareBytes, List.foldr_cons, ← compareBytes, ih]
    exact compareByte_masks s l _ _

theorem isCanonicalSignatureScalar_iff (sig : Bytes64) :
    isCanonicalSignatureScalar sig = true ↔ leValue (sig.data.drop 32) < groupOrder := by
  have hlen : (sig.data.drop 32).length = L.length := by
    rw [List.length_drop, sig.size_eq]
    rfl
  rw [isCanonicalSignatureScalar, compareBytes_eq _ _ hlen, leValue_L, masks]
  split <;> simp_all

end SecretKey

/-! ## 2. The cache -/

/-- `bytes32::operator<`: the order of the keys in a `std::map`. -/
instance (n : Nat) : Ord (FixedBytes n) := ⟨compareOn FixedBytes.data⟩

instance (n : Nat) : Std.TransOrd (FixedBytes n) :=
  inferInstanceAs (Std.TransCmp (compareOn FixedBytes.data))

instance (n : Nat) : Std.LawfulEqOrd (FixedBytes n) where
  eq_of_compare h := FixedBytes.ext (Std.LawfulEqOrd.eq_of_compare h)

/-- `SimpleCache<Key, Value>`. -/
structure SimpleCache (Key Value : Type) [Ord Key] where
  mData : Std.TreeMap Key Value
  mMaxSize : Nat

namespace SimpleCache

variable {Key Value : Type} [Ord Key]

def new (maxSize : Nat) : SimpleCache Key Value := ⟨∅, maxSize⟩

/-- `Exists` and `Get`. -/
def get (c : SimpleCache Key Value) (key : Key) : Option Value := c.mData[key]?

/-- `mData.erase(mData.begin())`. -/
def eraseFirst (mData : Std.TreeMap Key Value) : Std.TreeMap Key Value :=
  match mData.minKey? with
  | some first => mData.erase first
  | none => mData

def put (c : SimpleCache Key Value) (key : Key) (value : Value) : SimpleCache Key Value :=
  let full := decide (c.mMaxSize ≤ c.mData.size) && !c.mData.contains key
  { c with mData := (if full then eraseFirst c.mData else c.mData).insert key value }

def clear (c : SimpleCache Key Value) : SimpleCache Key Value := { c with mData := ∅ }

variable [Std.TransOrd Key]

theorem get_new (maxSize : Nat) (key : Key) : (new maxSize : SimpleCache Key Value).get key = none := by
  simp [new, get]

theorem get_clear (c : SimpleCache Key Value) (key : Key) : c.clear.get key = none := by
  simp [clear, get]

theorem getElem?_eraseFirst {mData : Std.TreeMap Key Value} {key : Key} {value : Value}
    (h : (eraseFirst mData)[key]? = some value) : mData[key]? = some value := by
  unfold eraseFirst at h
  split at h
  · rw [Std.TreeMap.getElem?_erase] at h
    split at h
    · cases h
    · exact h
  · exact h

/-- **What is found after a `Put`** is what was put, or was there before. -/
theorem get_put [Std.LawfulEqOrd Key] {c : SimpleCache Key Value} {key k : Key} {value v : Value}
    (h : (c.put key value).get k = some v) : key = k ∧ value = v ∨ c.get k = some v := by
  rw [get, put, Std.TreeMap.getElem?_insert] at h
  split at h
  · rename_i heq
    exact .inl ⟨Std.LawfulEqOrd.eq_of_compare heq, Option.some.inj h⟩
  · right
    split at h
    · exact getElem?_eraseFirst h
    · exact h

end SimpleCache

/-! ## 3. `Verify` -/

/-- `ed25519_sign_open`; zero is success. -/
class SignOpen where
  signOpen : (m : List UInt8) → (pk : Bytes32) → (rs : Bytes64) → Int32

/-- The arguments of a call. -/
structure VerifyCall where
  pubkey : Bytes32
  signature : Bytes64
  data : List UInt8
  deriving DecidableEq

/-- What `VerifySigCacheKey` hashes. -/
def VerifyCall.preimage (c : VerifyCall) : List UInt8 := c.pubkey.data ++ c.signature.data ++ c.data

def verifySigCacheKey (c : VerifyCall) : Bytes32 := sha256 c.preimage

/-- The key, the signature and the data can be read back from what is hashed. -/
theorem VerifyCall.preimage_injective : Function.Injective VerifyCall.preimage := by
  intro c c' h
  rw [VerifyCall.preimage, VerifyCall.preimage, List.append_assoc, List.append_assoc] at h
  obtain ⟨hpubkey, hrest⟩ := List.append_inj h (by simp)
  obtain ⟨hsignature, hdata⟩ := List.append_inj hrest (by simp)
  cases c
  cases c'
  simp_all [FixedBytes.ext_iff]

inductive VerifySigCacheResult
  | MISS
  | HIT
  | NO_LOOKUP
  deriving DecidableEq

structure VerifySigResult where
  valid : Bool
  cacheResult : VerifySigCacheResult
  deriving DecidableEq

def VERIFY_SIG_CACHE_SIZE : Nat := 250000

/-- The globals `gVerifySigCache`, `gVerifyCacheHit` and `gVerifyCacheMiss`. -/
structure VerifyCache where
  sigs : SimpleCache Bytes32 Bool
  hit : UInt64
  miss : UInt64

namespace VerifyCache

def new : VerifyCache := ⟨.new VERIFY_SIG_CACHE_SIZE, 0, 0⟩

/-- The first critical section of `Verify`: the answer on a hit. -/
def lookup (g : VerifyCache) (c : VerifyCall) : VerifyCache × Option Bool :=
  match g.sigs.get (verifySigCacheKey c) with
  | some valid => ({ g with hit := g.hit + 1 }, some valid)
  | none => (g, none)

/-- The second critical section, after `ed25519_sign_open` has said `ok`. -/
def record (g : VerifyCache) (c : VerifyCall) (ok : Bool) : VerifyCache :=
  let g := { g with miss := g.miss + 1 }
  if ok then { g with sigs := g.sigs.put (verifySigCacheKey c) ok } else g

def clear (g : VerifyCache) : VerifyCache := { g with sigs := g.sigs.clear }

def flushCounts (g : VerifyCache) : VerifyCache × UInt64 × UInt64 :=
  ({ g with hit := 0, miss := 0 }, g.hit, g.miss)

theorem sigs_lookup (g : VerifyCache) (c : VerifyCall) : (g.lookup c).1.sigs = g.sigs := by
  unfold lookup
  split <;> rfl

end VerifyCache

section Verify

variable [SignOpen]

/-- `ed25519_sign_open(data, len, pubkey.Data(), signature.data()) == 0`. -/
def VerifyCall.opens (c : VerifyCall) : Bool := SignOpen.signOpen c.data c.pubkey c.signature == 0

/-- `VerifySimple` as the rest of the node sees it: a function of its arguments. -/
@[reducible]
def SignOpen.ed25519 : Ed25519 where
  verifySimple pubkey signature msg :=
    SecretKey.isCanonicalSignatureScalar signature && VerifyCall.opens ⟨pubkey, signature, msg⟩

theorem SignOpen.verifySimple_eq (c : VerifyCall) :
    SignOpen.ed25519.verifySimple c.pubkey c.signature c.data =
      (SecretKey.isCanonicalSignatureScalar c.signature && c.opens) := rfl

def SecretKey.verify (g : VerifyCache) (c : VerifyCall) : VerifyCache × VerifySigResult :=
  if c.signature.data.length != 64 then (g, ⟨false, .NO_LOOKUP⟩)
  else if !isCanonicalSignatureScalar c.signature then (g, ⟨false, .NO_LOOKUP⟩)
  else
    match g.lookup c with
    | (g, some valid) => (g, ⟨valid, .HIT⟩)
    | (g, none) => (g.record c c.opens, ⟨c.opens, .MISS⟩)

/-- What the calls before, and other threads, do to the globals: each operation is one critical section. -/
inductive CacheOp
  | lookup (c : VerifyCall)
  | record (c : VerifyCall)
  | clear
  | flushCounts

namespace CacheOp

def run (g : VerifyCache) : CacheOp → VerifyCache
  | lookup c => (g.lookup c).1
  | record c => g.record c c.opens
  | clear => g.clear
  | flushCounts => g.flushCounts.1

def runAll (g : VerifyCache) (ops : List CacheOp) : VerifyCache := ops.foldl run g

/-- The call that an operation is part of. -/
def call : CacheOp → Option VerifyCall
  | lookup c => some c
  | record c => some c
  | clear => none
  | flushCounts => none

end CacheOp

theorem SecretKey.verify_run (g : VerifyCache) (c : VerifyCall) :
    ∃ ops, (∀ op ∈ ops, op.call = some c) ∧ (SecretKey.verify g c).1 = CacheOp.runAll g ops := by
  unfold SecretKey.verify
  split
  · exact ⟨[], by simp, rfl⟩
  split
  · exact ⟨[], by simp, rfl⟩
  split
  · rename_i hlookup
    exact ⟨[.lookup c], by simp [CacheOp.call], (congrArg Prod.fst hlookup).symm⟩
  · rename_i g' hlookup
    refine ⟨[.lookup c, .record c], by simp [CacheOp.call], ?_⟩
    have hfirst : (g.lookup c).1 = g' := congrArg Prod.fst hlookup
    rw [CacheOp.runAll, List.foldl_cons, List.foldl_cons, List.foldl_nil, CacheOp.run, CacheOp.run, hfirst]

/-! ## 4. The cache does not show -/

variable {g : VerifyCache} {asked : Set VerifyCall}

/-- The cache holds answers of the calls `asked`. -/
abbrev VerifyCache.Sound (g : VerifyCache) (asked : Set VerifyCall) : Prop :=
  Memo.Sound VerifyCall.opens verifySigCacheKey asked g.sigs.get

theorem VerifyCache.sound_new (asked : Set VerifyCall) : VerifyCache.new.Sound asked :=
  .empty fun _ => SimpleCache.get_new _ _

/-- Only accepted calls are recorded, and a full cache drops an entry for the new one. -/
theorem VerifyCache.Sound.record (h : g.Sound asked) {c : VerifyCall} (hc : c ∈ asked) :
    (g.record c c.opens).Sound asked := by
  unfold VerifyCache.record
  split
  · exact Memo.Sound.remember h hc fun _ _ => SimpleCache.get_put
  · exact h

theorem VerifyCache.Sound.run (h : g.Sound asked) {op : CacheOp}
    (hop : ∀ c, op.call = some c → c ∈ asked) : (op.run g).Sound asked := by
  cases op with
  | lookup c =>
    rw [CacheOp.run, VerifyCache.Sound, VerifyCache.sigs_lookup]
    exact h
  | record c => exact h.record (hop c rfl)
  | clear => exact .empty fun _ => SimpleCache.get_clear _ _
  | flushCounts => exact h

theorem VerifyCache.Sound.runAll : ∀ {ops : List CacheOp} {g : VerifyCache},
    g.Sound asked → (∀ op ∈ ops, ∀ c, op.call = some c → c ∈ asked) → (CacheOp.runAll g ops).Sound asked
  | [], _, h, _ => h
  | op :: ops, g, h, hops => by
    have hstep : (op.run g).Sound asked := h.run (hops op (List.mem_cons_self ..))
    exact hstep.runAll fun op' hop' => hops op' (List.mem_cons_of_mem _ hop')

/-- **On a sound cache, `Verify` answers as without one.** -/
theorem VerifyCache.Sound.verify (h : g.Sound asked) {c : VerifyCall}
    (hinj : Set.InjOn verifySigCacheKey (insert c asked)) :
    (SecretKey.verify g c).2.valid = SignOpen.ed25519.verifySimple c.pubkey c.signature c.data := by
  have hsize : (c.signature.data.length != 64) = false := by simp
  rw [SecretKey.verify, hsize, if_neg Bool.false_ne_true, SignOpen.verifySimple_eq]
  cases SecretKey.isCanonicalSignatureScalar c.signature with
  | false => rfl
  | true =>
    rw [Bool.not_true, if_neg Bool.false_ne_true, Bool.true_and, VerifyCache.lookup]
    cases hget : g.sigs.get (verifySigCacheKey c) with
    | none => rfl
    | some valid => exact h.answer hinj hget

/-- **The cache is transparent.** -/
theorem SecretKey.verify_valid_iff (history : List CacheOp) (c : VerifyCall)
    (hinj : Set.InjOn sha256
      (VerifyCall.preimage '' {c' | c' = c ∨ ∃ op ∈ history, op.call = some c'})) :
    (SecretKey.verify (CacheOp.runAll .new history) c).2.valid = true ↔
      leValue (c.signature.data.drop 32) < SecretKey.groupOrder ∧
        SignOpen.signOpen c.data c.pubkey c.signature = 0 := by
  have hsound := (VerifyCache.sound_new {c' | ∃ op ∈ history, op.call = some c'}).runAll
    fun op hop c' hc' => ⟨op, hop, hc'⟩
  have hkeys : Set.InjOn verifySigCacheKey (insert c {c' | ∃ op ∈ history, op.call = some c'}) := by
    intro c₁ h₁ c₂ h₂ heq
    exact VerifyCall.preimage_injective (hinj ⟨c₁, h₁, rfl⟩ ⟨c₂, h₂, rfl⟩ heq)
  rw [hsound.verify hkeys, SignOpen.verifySimple_eq, Bool.and_eq_true,
    SecretKey.isCanonicalSignatureScalar_iff, VerifyCall.opens, beq_iff_eq]

end Verify

def zeroCall (data : List UInt8) : VerifyCall := ⟨.zero, .zero, data⟩

/-- Two calls are recorded, and the first is made again: it is answered as `ed25519_sign_open` would. -/
theorem verify_valid_iff_recorded :
    let accepts : SignOpen := ⟨fun _ _ _ => 0⟩
    (SecretKey.verify (CacheOp.runAll .new [.record (zeroCall []), .record (zeroCall [1])])
        (zeroCall [])).2.valid = true ↔
      leValue ((zeroCall []).signature.data.drop 32) < SecretKey.groupOrder ∧
        accepts.signOpen [] .zero .zero = 0 := by
  intro accepts
  refine SecretKey.verify_valid_iff _ (zeroCall []) ?_
  have hne : sha256 (zeroCall []).preimage ≠ sha256 (zeroCall [1]).preimage := by
    rw [sha256_eq, sha256_eq]
    decide +kernel
  rintro _ ⟨c, hc, rfl⟩ _ ⟨c', hc', rfl⟩ heq
  have hcases : ∀ d, (d = zeroCall [] ∨ ∃ op ∈ ([.record (zeroCall []), .record (zeroCall [1])] : List CacheOp),
      op.call = some d) → d = zeroCall [] ∨ d = zeroCall [1] := by
    simp only [List.mem_cons, List.not_mem_nil, or_false]
    rintro d (rfl | ⟨op, rfl | rfl, hd⟩)
    · exact .inl rfl
    · exact .inl (Option.some.inj hd).symm
    · exact .inr (Option.some.inj hd).symm
  rcases hcases c hc with rfl | rfl <;> rcases hcases c' hc' with rfl | rfl
  · rfl
  · exact absurd heq hne
  · exact absurd heq.symm hne
  · rfl

end Moneu
