/-
# A wallet file cut short

`LoadFromFile` does not ask whether a read got all its bytes.  A stream at its end leaves what it
should have filled as it was, and what was there before is zero in a fresh process: no address, no
used leaf, no leaf pointer.  Zeros pass every check of the reader but one, the size of the entropy.

So a file is refused when it ends BEFORE the size of the entropy, at 116 bytes (`refused_of_short`,
any file into any wallet).  One byte more is enough: the size is below 256, its first byte is all
of it, and everything after that byte may be missing (`passes_of_readable`).  In general a prefix
is refused exactly if a number it SHOWS, missing bytes taken as zeros, is out of bounds
(`refused_iff`).
-/
import Moneu.Wallet.FileRoundTrip

namespace Moneu

open NetParams

theorem leValue_zeros (m : Nat) : leValue (List.replicate m 0) = 0 := by
  induction m with
  | zero => rfl
  | succ m ih => rw [List.replicate_succ, leValue, ih]; rfl

/-- Some of the little-endian bytes of a number, with zeros for the others. -/
theorem leValue_take : ∀ (n k m v : Nat),
    leValue ((leBytes n v).take k ++ List.replicate m 0) = v % 256 ^ min n k
  | 0, k, m, v => by simp [leBytes, leValue_zeros, Nat.mod_one]
  | n + 1, 0, m, v => by simp [leValue_zeros, Nat.mod_one]
  | n + 1, k + 1, m, v => by
    have hbyte : (UInt8.ofNat (v % 256)).toNat = v % 256 := by simp [UInt8.toNat_ofNat']
    rw [leBytes, List.take_succ_cons, List.cons_append, leValue, leValue_take n k m, hbyte,
      Nat.succ_min_succ, Nat.pow_succ', Nat.mod_mul]

namespace WalletManager

open Loader

/-- `LoadFromFile` throws. -/
def Refused (w : WalletManager) (bytes : List UInt8) : Prop :=
  ∃ what s, loadFromFile (before bytes w) = .error what s

/-! ## 1. Files of at most 116 bytes -/

/-- What comes before the size of the entropy. -/
def headerBytes : Nat := 4 + 32 + 32 + 16 + 32

/-- The stream has at most `n` bytes left. -/
def Short (n : Nat) (s : LoadState) : Prop := s.good = true → s.rest.length ≤ n

section Short

variable {n : Nat} {E : LoadState → Prop}

theorem short_read (old : List UInt8) :
    Triple (Short (old.length + n)) (read old) (fun _ => Short n) E := by
  intro s hs
  unfold Loader.read
  by_cases hgood : s.good = true
  · rw [if_pos hgood]
    intro _
    have hle := hs hgood
    change (s.rest.drop old.length).length ≤ n
    rw [List.length_drop]
    omega
  · rw [if_neg hgood]
    exact fun hgood' => absurd hgood' hgood

theorem short_readU32 (old : UInt32) :
    Triple (Short (4 + n)) (readU32 old) (fun _ => Short n) E := by
  refine Triple.bind (Q := fun _ => Short n) ?_ fun bytes => Triple.pure fun _ hs => hs
  exact short_read (n := n) (writeLE32 old)

theorem short_readArray {k : Nat} (old : FixedBytes k) :
    Triple (Short (k + n)) (readArray old) (fun _ => Short n) E := by
  intro s hs
  unfold Loader.readArray
  by_cases hgood : s.good = true
  · rw [if_pos hgood]
    intro _
    have hle := hs hgood
    have hsize := old.size_eq
    change (s.rest.drop old.data.length).length ≤ n
    rw [List.length_drop]
    omega
  · rw [if_neg hgood]
    exact fun hgood' => absurd hgood' hgood

theorem short_modifyWallet (f : WalletManager → WalletManager) :
    Triple (Short n) (modifyWallet f) (fun _ => Short n) E := fun _ hs => hs

theorem short_wallet : Triple (Short n) wallet (fun _ => Short n) E := fun _ hs => hs

theorem short_throwIf (c : Prop) [Decidable c] (what : String) :
    Triple (Short n) (throwIf c what) (fun _ => Short n) (fun _ => True) := by
  refine Triple.ite (fun _ => Triple.throw fun _ _ => trivial) fun _ => Triple.pure fun _ hs => hs

/-- **At the end of the stream a number stays what it was.** -/
theorem end_readU32 (old : UInt32) :
    Triple (Short 0) (readU32 old) (fun v _ => v = old) E := by
  have hread : Triple (Short 0) (read (writeLE32 old)) (fun bytes _ => bytes = writeLE32 old) E := by
    intro s hs
    unfold Loader.read
    by_cases hgood : s.good = true
    · have hnil : s.rest = [] := List.eq_nil_of_length_eq_zero (Nat.le_zero.mp (hs hgood))
      rw [if_pos hgood, hnil]
      rfl
    · rw [if_neg hgood]
  refine hread.bind fun bytes => Triple.pure ?_
  rintro s rfl
  have hvalue := readLE32_writeLE32 old []
  rwa [List.append_nil] at hvalue

/-- **A file of at most 116 bytes is refused**, whatever it holds. -/
theorem loadFromFile_short :
    Triple (Short headerBytes) loadFromFile (fun _ _ => False) (fun _ => True) := by
  refine (short_readU32 (n := 112) 0).bind fun version => Triple.bind (Q := fun _ _ => False) ?_ fun _ _ h => h.elim
  refine (short_throwIf _ _).bind fun _ => ?_
  refine short_wallet.bind fun v => (short_readArray (n := 80) v.masterPubkey).bind fun _ => ?_
  refine (short_modifyWallet _).bind fun _ => short_wallet.bind fun v => ?_
  refine (short_readArray (n := 48) v.salt).bind fun _ => ?_
  refine (short_modifyWallet _).bind fun _ => short_wallet.bind fun v => ?_
  refine (short_readArray (n := 32) v.iv).bind fun _ => ?_
  refine (short_modifyWallet _).bind fun _ => short_wallet.bind fun v => ?_
  refine (short_readArray (n := 0) v.tag).bind fun _ => (short_modifyWallet _).bind fun _ => ?_
  refine (end_readU32 0).bind fun entropySize => ?_
  rintro s rfl
  trivial

theorem refused_of_short (w : WalletManager) {bytes : List UInt8} (h : bytes.length ≤ headerBytes) :
    Refused w bytes := by
  have hrun := loadFromFile_short.run (fun _ => h : Short headerBytes (before bytes w))
  unfold Refused
  cases hload : loadFromFile (before bytes w) with
  | error what s => exact ⟨what, s, rfl⟩
  | ok _ s =>
    rw [hload] at hrun
    exact hrun.elim

end Short

/-! ## 2. A file cut to `n` bytes -/

variable {saved : WalletManager} {n : Nat}

/-- What `n` bytes of a file show of the number that stands at `pos`. -/
def shown (n pos v : Nat) : Nat := v % 256 ^ min 4 (n - pos)

/-- The stream at `pos`, where the whole file goes on with `full`: it holds the bytes up to `n`, or
it has ended before `pos`.  `I` holds of the wallet. -/
structure At (I : WalletManager → Prop) (n pos : Nat) (full : List UInt8) (s : LoadState) : Prop where
  wallet : I s.wallet
  live : s.good = true → pos ≤ n ∧ s.rest = full.take (n - pos)
  ended : ¬ s.good = true → n < pos

section Cut

variable {I : WalletManager → Prop} {n pos : Nat} {rest : List UInt8} {E : LoadState → Prop}

variable {s : LoadState} {full : List UInt8}

theorem read_ended (h : ¬ s.good = true) (old : List UInt8) : read old s = .ok old s :=
  if_neg h

theorem At.drop {len : Nat} {bytes : List UInt8} (h : At I n pos (bytes ++ rest) s)
    (hgood : s.good = true) (hlen : len = bytes.length) :
    At I n (pos + bytes.length) rest
      { s with rest := s.rest.drop len, good := len ≤ s.rest.length } := by
  obtain ⟨hpos, hrest⟩ := h.live hgood
  subst hlen
  refine ⟨h.wallet, ?_, ?_⟩
  · intro hmore
    have hle := of_decide_eq_true hmore
    rw [hrest, List.length_take] at hle
    refine ⟨by omega, ?_⟩
    change s.rest.drop bytes.length = _
    rw [hrest, List.drop_take, List.drop_left, Nat.sub_sub]
  · intro hend
    have hlt := of_decide_eq_false (Bool.eq_false_iff.mpr hend)
    rw [hrest, List.length_take, List.length_append] at hlt
    omega

theorem At.past (h : At I n pos full s) (hended : ¬ s.good = true) (len : Nat) (full' : List UInt8) :
    At I n (pos + len) full' s where
  wallet := h.wallet
  live hgood := absurd hgood hended
  ended _ := (h.ended hended).trans_le (Nat.le_add_right _ _)

/-- **A buffer is read.**  Its size matters only while the stream is there. -/
theorem at_read (old bytes : List UInt8) :
    Triple (fun s => (s.good = true → old.length = bytes.length) ∧ At I n pos (bytes ++ rest) s)
      (read old) (fun _ => At I n (pos + bytes.length) rest) E := by
  rintro s ⟨hlen, hat⟩
  unfold Loader.read
  by_cases hgood : s.good = true
  · rw [if_pos hgood]
    exact hat.drop hgood (hlen hgood)
  · rw [if_neg hgood]
    exact hat.past hgood _ _

theorem at_readSized {old bytes : List UInt8} {x v : UInt32} (hold : old.length = x.toNat)
    (hv : v.toNat = bytes.length) :
    Triple (fun s => (s.good = true → x = v) ∧ At I n pos (bytes ++ rest) s) (read old)
      (fun _ => At I n (pos + bytes.length) rest) E := by
  refine (at_read old bytes).imp ?_ fun _ _ hs => hs
  rintro s ⟨hall, hat⟩
  exact ⟨fun hgood => by rw [hold, hall hgood, hv], hat⟩

theorem at_readArray {k : Nat} (old a : FixedBytes k) :
    Triple (At I n pos (a.data ++ rest)) (readArray old) (fun _ => At I n (pos + k) rest) E := by
  intro s hat
  have hsize := a.size_eq
  have hlen : old.data.length = a.data.length := by rw [old.size_eq, hsize]
  unfold Loader.readArray
  by_cases hgood : s.good = true
  · rw [if_pos hgood]
    have hdrop := hat.drop hgood hlen
    rwa [hsize] at hdrop
  · rw [if_neg hgood]
    exact hat.past hgood _ _

theorem readLE32_take (v : UInt32) {k : Nat} (hk : k ≤ 4) :
    (readLE32 ((writeLE32 v).take k ++ List.replicate (4 - k) 0)).toNat = v.toNat % 256 ^ k := by
  have hlen : ((writeLE32 v).take k ++ List.replicate (4 - k) 0).length = 4 := by
    rw [List.length_append, List.length_take, length_writeLE32, List.length_replicate]
    omega
  have hmin : min 4 k = k := Nat.min_eq_right hk
  have hlt : v.toNat % 256 ^ k < 2 ^ 32 := (Nat.mod_le _ _).trans_lt v.toNat_lt
  unfold readLE32
  rw [List.take_of_length_le (Nat.le_of_eq hlen), writeLE32, leValue_take, hmin,
    UInt32.toNat_ofNat', Nat.mod_eq_of_lt hlt]

theorem overwrite_take (v : UInt32) (k : Nat) :
    ((writeLE32 v ++ rest).take k).take (writeLE32 0).length ++
      (writeLE32 0).drop ((writeLE32 v ++ rest).take k).length =
      (writeLE32 v).take (min 4 k) ++ List.replicate (4 - min 4 k) 0 := by
  have hzeros : writeLE32 0 = List.replicate 4 0 := rfl
  have hmissing : 4 - min k (4 + rest.length) = 4 - min 4 k := by omega
  rw [length_writeLE32, List.take_take, hzeros, List.drop_replicate, List.length_take,
    List.length_append, length_writeLE32, hmissing, List.take_append_of_le_length]
  rw [length_writeLE32]
  exact Nat.min_le_left _ _

/-- **A number is read**: what is shown of it, which is all of it while the stream is there. -/
theorem at_readU32 (v : UInt32) :
    Triple (At I n pos (writeLE32 v ++ rest)) (readU32 0)
      (fun x s => x.toNat = shown n pos v.toNat ∧ (s.good = true → x = v) ∧ At I n (pos + 4) rest s)
      E := by
  have hread : Triple (At I n pos (writeLE32 v ++ rest)) (read (writeLE32 0))
      (fun bytes s => (readLE32 bytes).toNat = shown n pos v.toNat ∧ At I n (pos + 4) rest s) E := by
    intro s hat
    unfold Loader.read
    by_cases hgood : s.good = true
    · rw [if_pos hgood]
      refine ⟨?_, hat.drop hgood rfl⟩
      obtain ⟨_, hrest⟩ := hat.live hgood
      rw [hrest, overwrite_take]
      exact readLE32_take v (Nat.min_le_left _ _)
    · rw [if_neg hgood]
      refine ⟨?_, hat.past hgood _ _⟩
      have hlt := hat.ended hgood
      have hnone : min 4 (n - pos) = 0 := by omega
      rw [shown, hnone, Nat.pow_zero, Nat.mod_one]
      rfl
  refine hread.bind fun bytes => Triple.pure ?_
  rintro s ⟨hvalue, hat⟩
  refine ⟨hvalue, fun hgood => ?_, hat⟩
  obtain ⟨hle, _⟩ := hat.live hgood
  have hall : min 4 (n - pos) = 4 := by omega
  rw [shown, hall] at hvalue
  exact UInt32.toNat_inj.mp (hvalue.trans (Nat.mod_eq_of_lt v.toNat_lt))

theorem at_readU32_any (old v : UInt32) :
    Triple (At I n pos (writeLE32 v ++ rest)) (readU32 old) (fun _ => At I n (pos + 4) rest) E := by
  refine Triple.bind ?_ fun bytes => Triple.pure fun _ hs => hs
  refine (at_read (writeLE32 old) (writeLE32 v)).imp (fun s hs => ⟨fun _ => ?_, hs⟩) fun _ _ hs => hs
  rw [length_writeLE32, length_writeLE32]

theorem at_wallet :
    Triple (At I n pos full) wallet (fun w s => I w ∧ At I n pos full s) E :=
  fun _ hs => ⟨hs.wallet, hs⟩

theorem any_wallet {P : LoadState → Prop} : Triple P wallet (fun _ => P) E := fun _ hs => hs

theorem at_modifyWallet {f : WalletManager → WalletManager} (hf : ∀ w, I w → I (f w)) :
    Triple (At I n pos full) (modifyWallet f) (fun _ => At I n pos full) E :=
  fun _ hs => ⟨hf _ hs.wallet, hs.live, hs.ended⟩

theorem at_throwIf {P : LoadState → Prop} (c : Prop) [Decidable c] (what : String) (hE : c → ∀ s, E s) :
    Triple P (throwIf c what) (fun _ s => ¬ c ∧ P s) E := by
  refine Triple.ite (fun hc => Triple.throw fun s _ => hE hc s) fun hc => Triple.pure fun s hs => ?_
  exact ⟨hc, hs⟩

/-! ## 3. The parts of the file -/

variable {B : Prop}

/-- The pointer of a fresh process. -/
def Unmoved (w : WalletManager) : Prop := w.noiseNextLeaf = 0

/-- In records from `pos` on, a label is shown to be too long. -/
def LongLabel (n : Nat) : Nat → List WalletAddress → Prop
  | _, [] => False
  | pos, addr :: addrs =>
    256 < shown n (pos + 37) addr.label.length ∨ LongLabel n (pos + (addressBytes addr).length) addrs

theorem shown_ended {v : Nat} (h : n ≤ pos) : shown n pos v = 0 := by
  have hnone : min 4 (n - pos) = 0 := by omega
  rw [shown, hnone, Nat.pow_zero, Nat.mod_one]

theorem not_longLabel_of_ended (addrs : List WalletAddress) {pos : Nat} (h : n < pos) :
    ¬ LongLabel n pos addrs := by
  induction addrs generalizing pos with
  | nil => exact id
  | cons addr addrs ih =>
    rintro (hlong | hlong)
    · rw [shown_ended (by omega)] at hlong
      omega
    · exact ih (h.trans_le (Nat.le_add_right _ _)) hlong

theorem at_readHeader (hentropy : saved.encryptedEntropy.length < 2 ^ 32)
    (hB : ¬ EntropyFits (shown n headerBytes saved.encryptedEntropy.length) → B) :
    Triple (At Unmoved n 4 (saved.masterPubkey.data ++ (saved.salt.data ++ (saved.iv.data ++
        (saved.tag.data ++ (writeLE32 (UInt32.ofNat saved.encryptedEntropy.length) ++
          (saved.encryptedEntropy ++ rest)))))))
      (readHeader WALLET_VERSION)
      (fun _ s => EntropyFits (shown n headerBytes saved.encryptedEntropy.length) ∧
        At Unmoved n (headerBytes + 4 + saved.encryptedEntropy.length) rest s) (fun _ => B) := by
  have hword : (UInt32.ofNat saved.encryptedEntropy.length).toNat = saved.encryptedEntropy.length := by
    rw [UInt32.toNat_ofNat', Nat.mod_eq_of_lt hentropy]
  refine (at_throwIf _ _ fun hversion => absurd rfl hversion.1).bind fun _ => Triple.assume fun _ => ?_
  refine at_wallet.bind fun v => Triple.assume fun _ => (at_readArray _ saved.masterPubkey).bind fun _ => ?_
  refine Triple.bind (at_modifyWallet (by intro w hw; exact hw)) fun _ => ?_
  refine at_wallet.bind fun v => Triple.assume fun _ => (at_readArray _ saved.salt).bind fun _ => ?_
  refine Triple.bind (at_modifyWallet (by intro w hw; exact hw)) fun _ => ?_
  refine at_wallet.bind fun v => Triple.assume fun _ => (at_readArray _ saved.iv).bind fun _ => ?_
  refine Triple.bind (at_modifyWallet (by intro w hw; exact hw)) fun _ => ?_
  refine at_wallet.bind fun v => Triple.assume fun _ => (at_readArray _ saved.tag).bind fun _ => ?_
  refine Triple.bind (at_modifyWallet (by intro w hw; exact hw)) fun _ => ?_
  refine (at_readU32 _).bind fun entropySize => Triple.assume fun hshown => ?_
  rw [hword] at hshown
  have hsize := entropyFits_ofNat entropySize.toNat_lt
  rw [UInt32.ofNat_toNat] at hsize
  have hfits : EntropyFits entropySize.toNat ↔
      EntropyFits (shown n headerBytes saved.encryptedEntropy.length) := by
    rw [hshown]
    exact Iff.rfl
  rw [hfits] at hsize
  refine (at_throwIf _ _ fun hbad _ => hB (hsize.mp hbad)).bind fun _ => Triple.assume fun hgood => ?_
  refine any_wallet.bind fun v => ?_
  refine Triple.bind (at_readSized ?_ hword) fun _ s hat => ?_
  · rw [List.length_take, UsedMap.grow, List.length_append, List.length_replicate]
    omega
  · exact ⟨Decidable.byContradiction (mt hsize.mpr hgood), hat.wallet, hat.live, hat.ended⟩

theorem at_readAddress {addr : WalletAddress} (hlabel : addr.label.length < 2 ^ 32)
    (hB : 256 < shown n (pos + 37) addr.label.length → B) :
    Triple (At I n pos (addressBytes addr ++ rest)) readAddress
      (fun _ s => ¬ 256 < shown n (pos + 37) addr.label.length ∧
        At I n (pos + (addressBytes addr).length) rest s) (fun _ => B) := by
  have hword : (UInt32.ofNat addr.label.length).toNat = addr.label.length := by
    rw [UInt32.toNat_ofNat', Nat.mod_eq_of_lt hlabel]
  have hrecord : pos + (addressBytes addr).length = pos + 37 + 4 + addr.label.length := by
    simp only [addressBytes, List.length_append, addr.pubkeyHash.size_eq, length_writeLE32,
      List.length_singleton]
    omega
  rw [hrecord]
  simp only [addressBytes, List.append_assoc]
  refine (at_readArray _ addr.pubkeyHash).bind fun _ => (at_readU32_any 0 addr.keyIndex).bind fun _ => ?_
  refine Triple.bind ((at_read [0] [if addr.isChange then 1 else 0]).imp
    (fun s hs => ⟨fun _ => rfl, hs⟩) fun _ _ hs => hs) fun _ => ?_
  refine (at_readU32 _).bind fun labelLen => Triple.assume fun hshown => ?_
  rw [hword] at hshown
  have hlong : labelLen > 256 ↔ 256 < shown n (pos + 37) addr.label.length := by
    rw [gt_iff_lt, UInt32.lt_iff_toNat_lt, hshown]
    exact Iff.rfl
  refine (at_throwIf _ _ fun hbad _ => hB (hlong.mp hbad)).bind fun _ => Triple.assume fun hshort => ?_
  refine Triple.bind (at_readSized List.length_replicate hword) fun _ => Triple.pure fun s hat => ?_
  exact ⟨mt hlong.mpr hshort, hat⟩

theorem at_readAddresses (hI : ∀ w addrs, I w → I { w with addresses := addrs }) :
    ∀ (addrs : List WalletAddress) {pos : Nat}, (∀ addr ∈ addrs, addr.label.length < 2 ^ 32) →
      (LongLabel n pos addrs → B) →
      Triple (At I n pos (addrs.flatMap addressBytes ++ rest)) (readAddresses addrs.length)
        (fun _ s => ¬ LongLabel n pos addrs ∧
          At I n (pos + (addrs.flatMap addressBytes).length) rest s) (fun _ => B)
  | [], pos, _, _ => Triple.pure fun _ hs => ⟨fun hnone => hnone, hs⟩
  | addr :: addrs, pos, hlabels, hB => by
    obtain ⟨hlabel, hrest⟩ := List.forall_mem_cons.mp hlabels
    rw [List.flatMap_cons, List.append_assoc, List.length_append, ← Nat.add_assoc]
    refine (at_readAddress hlabel fun hlong => hB (.inl hlong)).bind fun a =>
      Triple.assume fun hshort => ?_
    refine Triple.bind (at_modifyWallet (by intro w hw; exact hI _ _ hw)) fun _ => ?_
    refine (at_readAddresses hI addrs hrest fun hlong => hB (.inr hlong)).imp (fun _ hs => hs) ?_
    rintro _ s ⟨hnone, hat⟩
    refine ⟨?_, hat⟩
    rintro (hlong | hlong)
    · exact hshort hlong
    · exact hnone hlong

theorem readU32_ended (h : ¬ s.good = true) (old : UInt32) :
    readU32 old s = .ok old s := by
  have hvalue := readLE32_writeLE32 old []
  rw [List.append_nil] at hvalue
  simp only [Loader.readU32, Bind.bind, EStateM.bind, read_ended h]
  exact congrArg (EStateM.Result.ok · s) hvalue

theorem readAddress_ended (h : ¬ s.good = true) :
    Triple (· = s) readAddress (fun _ s' => s' = s) E := by
  have harray : readArray (FixedBytes.zero : Bytes32) s = .ok FixedBytes.zero s := if_neg h
  refine Triple.bind_at harray (Triple.bind_at (readU32_ended h 0) ?_)
  refine Triple.bind_at (read_ended h [0]) (Triple.bind_at (readU32_ended h 0) ?_)
  refine bind_throwIf (fun hlong => absurd hlong (by decide)) fun _ => ?_
  exact Triple.bind_at (read_ended h _) (Triple.pure fun _ hs => hs)

theorem readAddresses_ended (hI : ∀ w addrs, I w → I { w with addresses := addrs }) : ∀ k : Nat,
    Triple (fun s => I s.wallet ∧ ¬ s.good = true) (readAddresses k)
      (fun _ s => I s.wallet ∧ ¬ s.good = true) E
  | 0 => Triple.pure fun _ hs => hs
  | k + 1 => by
    have haddress : Triple (fun s => I s.wallet ∧ ¬ s.good = true) readAddress
        (fun _ s => I s.wallet ∧ ¬ s.good = true) E := by
      rintro s ⟨hw, hended⟩
      refine ((readAddress_ended hended).imp (fun _ h => h) ?_) s rfl
      rintro _ s' rfl
      exact ⟨hw, hended⟩
    refine haddress.bind fun addr => Triple.bind (Q := fun _ s => I s.wallet ∧ ¬ s.good = true) ?_
      fun _ => readAddresses_ended hI k
    rintro s ⟨hw, hended⟩
    exact ⟨hI _ _ hw, hended⟩

/-- **The address records**, for a number of them that was read from the stream. -/
theorem at_readAddresses_count (hI : ∀ w addrs, I w → I { w with addresses := addrs })
    {addrs : List WalletAddress} (hlabels : ∀ addr ∈ addrs, addr.label.length < 2 ^ 32)
    (hB : LongLabel n pos addrs → B) (k : Nat) :
    Triple (fun s => (s.good = true → k = addrs.length) ∧
        At I n pos (addrs.flatMap addressBytes ++ rest) s) (readAddresses k)
      (fun _ s => ¬ LongLabel n pos addrs ∧
        At I n (pos + (addrs.flatMap addressBytes).length) rest s) (fun _ => B) := by
  rintro s ⟨hk, hat⟩
  by_cases hgood : s.good = true
  · rw [hk hgood]
    exact at_readAddresses hI addrs hlabels hB s hat
  · have hlt := hat.ended hgood
    refine ((readAddresses_ended hI k).imp (fun _ h => h) ?_) s ⟨hat.wallet, hgood⟩
    rintro _ s' ⟨hw, hended⟩
    exact ⟨not_longLabel_of_ended addrs hlt, hw, fun hlive => absurd hlive hended,
      fun _ => hlt.trans_le (Nat.le_add_right _ _)⟩

theorem at_readUsedMap (hmap : saved.noiseUsed.length ≤ mapBytes) :
    Triple (At (fun _ => True) n pos
        (writeLE32 (UInt32.ofNat saved.trimmedMap.length) ++ (saved.trimmedMap ++ rest)))
      (readUsedMap WALLET_VERSION)
      (fun _ => At (fun _ => True) n (pos + 4 + saved.trimmedMap.length) rest) E := by
  have htrim : saved.trimmedMap.length ≤ mapBytes :=
    (List.rdropWhile_prefix _ _).length_le.trans hmap
  have hword : (UInt32.ofNat saved.trimmedMap.length).toNat = saved.trimmedMap.length := by
    have hbytes : mapBytes = 131072 := by decide
    rw [UInt32.toNat_ofNat', Nat.mod_eq_of_lt (by omega)]
  refine Triple.bind (at_modifyWallet fun _ _ => trivial) fun _ => ?_
  rw [if_pos (by decide)]
  refine (at_readU32 _).bind fun usedLen => Triple.assume fun hshown => ?_
  have hfits : ¬ usedLen.toNat > mapBytes := by
    have hle : usedLen.toNat ≤ saved.trimmedMap.length := by
      rw [hshown, hword]
      exact Nat.mod_le _ _
    omega
  refine (at_throwIf _ _ fun hbad => absurd hbad hfits).bind fun _ => Triple.assume fun _ => ?_
  exact Triple.bind (at_readSized List.length_replicate hword) fun _ =>
    at_modifyWallet fun _ _ => trivial

/-! ## 4. The whole file -/

/-- The numbers that the first `n` bytes show are within the bounds of the reader. -/
structure Passes (saved : WalletManager) (n : Nat) : Prop where
  entropy : EntropyFits (shown n headerBytes saved.encryptedEntropy.length)
  addresses_le : shown n (headerBytes + 4 + saved.encryptedEntropy.length) saved.addresses.length ≤
    MAX_ADDRESSES
  labels_le : ¬ LongLabel n (headerBytes + 4 + saved.encryptedEntropy.length + 4) saved.addresses
  pointer_le : shown n (headerBytes + 4 + saved.encryptedEntropy.length + 4 +
    (saved.addresses.flatMap addressBytes).length + 4 + 4) saved.noiseNextLeaf.toNat ≤
      NOISE_LEAF_COUNT.toNat

/-- **A file cut to `n` bytes** passes if the numbers it shows do. -/
theorem loadFromFile_cut (hsaved : Saveable saved) (hn : 1 ≤ n) :
    Triple (· = before (saved.saveBytes.take n) fresh) loadFromFile (fun _ _ => Passes saved n)
      (fun _ => ¬ Passes saved n) := by
  have hcount : (UInt32.ofNat saved.addresses.length).toNat = saved.addresses.length := by
    rw [UInt32.toNat_ofNat', Nat.mod_eq_of_lt hsaved.addresses_lt]
  have hprepared : writeLE32 0 = writeLE32 0 ++ [] := (List.append_nil _).symm
  have hstart : At Unmoved n 0 saved.saveBytes (before (saved.saveBytes.take n) fresh) :=
    ⟨rfl, fun _ => ⟨Nat.zero_le n, rfl⟩, fun hended => absurd rfl hended⟩
  refine Triple.imp (P := At Unmoved n 0 saved.saveBytes) ?_ (by rintro _ rfl; exact hstart)
    fun _ _ hs => hs
  unfold saveBytes
  rw [hprepared]
  refine (at_readU32 _).bind fun version => Triple.assume fun hshown => ?_
  have hversion : version = WALLET_VERSION := by
    have hfirst : WALLET_VERSION.toNat < 256 ^ min 4 (n - 0) := by
      calc WALLET_VERSION.toNat < 256 ^ 1 := by decide
        _ ≤ 256 ^ min 4 (n - 0) := Nat.pow_le_pow_right (by decide) (by omega)
    exact UInt32.toNat_inj.mp (hshown.trans (Nat.mod_eq_of_lt hfirst))
  rw [hversion]
  refine Triple.bind (Q := fun _ s => _ ∧ _) ((at_readHeader hsaved.entropy_lt ?_).imp
    (fun _ hs => hs.2) fun _ _ hs => hs) fun _ => Triple.assume fun hentropy => ?_
  · exact fun hbad hpasses => hbad hpasses.entropy
  refine (at_readU32 _).bind fun addrCount => Triple.assume fun hcounted => ?_
  rw [hcount] at hcounted
  refine (at_throwIf _ _ fun hmany _ hpasses => ?_).bind fun _ => Triple.assume fun hfew => ?_
  · exact Nat.not_le.mpr hmany (hcounted ▸ hpasses.addresses_le)
  have hclear : ∀ (pos : Nat) (full : List UInt8) (E : LoadState → Prop), Triple
      (fun s => (s.good = true → addrCount = UInt32.ofNat saved.addresses.length) ∧
        At Unmoved n pos full s)
      (modifyWallet fun w => { w with addresses := [] })
      (fun _ s => (s.good = true → addrCount.toNat = saved.addresses.length) ∧
        At Unmoved n pos full s) E :=
    fun _ _ _ s hs => ⟨fun hgood => by rw [hs.1 hgood, hcount], hs.2.wallet, hs.2.live, hs.2.ended⟩
  refine (hclear _ _ _).bind fun _ => ?_
  refine (at_readAddresses_count (fun _ _ hw => hw) hsaved.labels_lt ?_ _).bind fun _ =>
    Triple.assume fun hlabels => ?_
  · exact fun hlong hpasses => hpasses.labels_le hlong
  refine any_wallet.bind fun v => (at_readU32_any _ _).bind fun _ => ?_
  refine Triple.bind (at_modifyWallet (by intro w hw; exact hw)) fun _ => ?_
  refine any_wallet.bind fun v => (at_readU32_any _ _).bind fun _ => ?_
  refine Triple.bind (at_modifyWallet (by intro w hw; exact hw)) fun _ => ?_
  refine at_wallet.bind fun v => Triple.assume fun hv => ?_
  rw [hv]
  refine (at_readU32 _).bind fun noiseNextLeaf => Triple.assume fun hpointer => ?_
  refine Triple.bind (Q := fun _ => At (fun _ => True) n _ _)
    (fun s hs => ⟨trivial, hs.2.live, hs.2.ended⟩) fun _ => ?_
  have hrange : noiseNextLeaf > NOISE_LEAF_COUNT ↔ NOISE_LEAF_COUNT.toNat < noiseNextLeaf.toNat :=
    UInt32.lt_iff_toNat_lt
  refine (at_throwIf _ _ fun hbeyond _ hpasses => ?_).bind fun _ => Triple.assume fun hinside => ?_
  · exact Nat.not_le.mpr (hrange.mp hbeyond) (hpointer ▸ hpasses.pointer_le)
  refine (at_readUsedMap hsaved.map_le).bind fun _ => ?_
  refine (at_readU32 _).bind fun preparedCount => Triple.assume fun hzero => ?_
  have hnone : ¬ preparedCount > 0 := by
    rw [gt_iff_lt, UInt32.lt_iff_toNat_lt, hzero]
    exact Nat.not_lt.mpr (Nat.mod_le _ _)
  refine Triple.bind (Q := fun _ _ => True) (fun _ _ => trivial) fun _ => ?_
  refine Triple.ite (fun hmore => absurd hmore.2 hnone) fun _ => Triple.pure fun _ _ => ?_
  exact ⟨hentropy, hcounted ▸ Nat.not_lt.mp hfew, hlabels,
    hpointer ▸ Nat.not_lt.mp (mt hrange.mpr hinside)⟩

end Cut

theorem not_passes_of_short (h : n ≤ headerBytes) :
    ¬ Passes saved n := by
  intro hpasses
  have hfits := hpasses.entropy
  rw [shown_ended h] at hfits
  exact hfits.1 rfl

theorem shown_le (n pos v : Nat) : shown n pos v ≤ v := Nat.mod_le _ _

theorem not_longLabel (addrs : List WalletAddress) {pos : Nat}
    (h : ∀ addr ∈ addrs, addr.label.length ≤ 256) : ¬ LongLabel n pos addrs := by
  induction addrs generalizing pos with
  | nil => exact id
  | cons addr addrs ih =>
    obtain ⟨hlabel, hrest⟩ := List.forall_mem_cons.mp h
    rintro (hlong | hlong)
    · have hle := shown_le n (pos + 37) addr.label.length
      omega
    · exact ih hrest hlong

theorem passes_of_readable (h : Readable saved) (hn : headerBytes < n) : Passes saved n where
  entropy := by
    have hmax : saved.encryptedEntropy.length ≤ 48 := h.entropy.2.1
    have hfirst : saved.encryptedEntropy.length < 256 ^ min 4 (n - headerBytes) := by
      calc saved.encryptedEntropy.length < 256 ^ 1 := by omega
        _ ≤ 256 ^ min 4 (n - headerBytes) := Nat.pow_le_pow_right (by decide) (by omega)
    rw [shown, Nat.mod_eq_of_lt hfirst]
    exact h.entropy
  addresses_le := (shown_le _ _ _).trans h.addresses_le
  labels_le := not_longLabel _ h.labels_le
  pointer_le := (shown_le _ _ _).trans (UInt32.le_iff_toNat_le.mp h.pointer_le)

theorem refused_fresh_iff (hsaved : Saveable saved) (hn : 1 ≤ n) :
    Refused fresh (saved.saveBytes.take n) ↔ ¬ Passes saved n := by
  have hrun := (loadFromFile_cut hsaved hn).run (rfl : before (saved.saveBytes.take n) fresh = _)
  unfold Refused
  cases hload : loadFromFile (before (saved.saveBytes.take n) fresh) with
  | error what s =>
    rw [hload] at hrun
    exact ⟨fun _ => hrun, fun _ => ⟨what, s, rfl⟩⟩
  | ok _ s =>
    rw [hload] at hrun
    refine ⟨?_, fun hbad => absurd hrun hbad⟩
    rintro ⟨_, _, herror⟩
    cases herror

/-- **Which prefixes are refused.**  A prefix of at most 116 bytes is refused, by any process.  A
fresh process refuses exactly the prefixes that show a number out of bounds; and if the whole file
loads, these are the prefixes of at most 116 bytes. -/
theorem refused_iff (saved : WalletManager) (n : Nat) :
    (n ≤ headerBytes → ∀ w, Refused w (saved.saveBytes.take n)) ∧
    (Saveable saved → (Refused fresh (saved.saveBytes.take n) ↔ ¬ Passes saved n)) ∧
    (Readable saved → (¬ Passes saved n ↔ n ≤ headerBytes)) := by
  have hshort : n ≤ headerBytes → ∀ w, Refused w (saved.saveBytes.take n) := by
    intro hle w
    refine refused_of_short w ?_
    rw [List.length_take]
    omega
  refine ⟨hshort, ?_, ?_⟩
  · intro hsaved
    by_cases hn : 1 ≤ n
    · exact refused_fresh_iff hsaved hn
    · have hle : n ≤ headerBytes := by omega
      exact ⟨fun _ => not_passes_of_short hle, fun _ => hshort hle fresh⟩
  · intro hread
    constructor
    · intro hbad
      exact Nat.not_lt.mp fun hn => hbad (passes_of_readable hread hn)
    · exact not_passes_of_short

theorem saveable_created : Saveable created :=
  ⟨by decide, by decide, fun _ h => absurd h List.not_mem_nil, Nat.zero_le _⟩

theorem readable_created : Readable created :=
  ⟨by decide, Nat.zero_le _, fun _ h => absurd h List.not_mem_nil, by decide⟩

/-- **A file that ends inside the size of its entropy** is loaded: no cipher, no address, no mark. -/
theorem truncated_accepted :
    created.encryptedEntropy ≠ [] ∧ 117 < created.saveBytes.length ∧
      ¬ Refused fresh (created.saveBytes.take 117) := by
  refine ⟨by decide, by decide +kernel, ?_⟩
  rw [refused_fresh_iff saveable_created (by decide)]
  exact not_not_intro (passes_of_readable readable_created (by decide))

/-- The same file without that byte is refused. -/
theorem refused_header : Refused fresh (created.saveBytes.take 116) := by
  obtain ⟨_, hrefused, hshort⟩ := refused_iff created 116
  exact (hrefused saveable_created).mpr ((hshort readable_created).mpr (by decide))

end WalletManager

end Moneu
