/-
# The wallet file

What `LoadFromFile` makes of a wallet.

On ANY file it keeps the wallet fit to be saved (`Saveable`), and it touches neither the seed nor
the flag that says a wallet was loaded.

On a file that `SaveToFile` wrote it brings everything back, the map of used leaves bit by bit: the
zeros cut off by the writer are put back by the reader.  Or it throws before it comes to the map,
and then the wallet violates one of the bounds that only the reader checks
(`loadFromFile_saveBytes`).
-/
import Moneu.Lib.Triple
import Moneu.Wallet.WalletManager

namespace Moneu

open NetParams

/-- An address as `LoadFromFile` builds it up again: its text is not in the file. -/
def WalletAddress.reloaded (addr : WalletAddress) : WalletAddress :=
  { addr with address := WalletManager.buildAddress addr.pubkeyHash }

namespace WalletManager

open Loader

/-! ## 1. Any file -/

/-- The length fields of the file are wide enough for the wallet. -/
structure Saveable (w : WalletManager) : Prop where
  entropy_lt : w.encryptedEntropy.length < 2 ^ 32
  addresses_lt : w.addresses.length < 2 ^ 32
  labels_lt : ∀ addr ∈ w.addresses, addr.label.length < 2 ^ 32
  map_le : w.noiseUsed.length ≤ mapBytes

theorem saveable_fresh : Saveable fresh :=
  ⟨by decide, by decide, fun _ h => absurd h List.not_mem_nil, Nat.zero_le _⟩

/-- What loading leaves alone. -/
structure SameKeys (w w' : WalletManager) : Prop where
  initialized : w'.initialized = w.initialized
  unlockedSeed : w'.unlockedSeed = w.unlockedSeed

/-- A wallet on its way through `LoadFromFile` that began with `w`; `room` more addresses may
follow. -/
structure Passing (w : WalletManager) (room : Nat) (s : LoadState) : Prop where
  saveable : Saveable s.wallet
  keys : SameKeys w s.wallet
  room : s.wallet.addresses.length + room < 2 ^ 32

section Passing

variable {w : WalletManager} {room : Nat}

theorem Passing.stream {s s' : LoadState} (h : Passing w room s) (heq : s'.wallet = s.wallet) :
    Passing w room s' := by
  obtain ⟨hsave, hkeys, hroom⟩ := h
  exact ⟨heq ▸ hsave, heq ▸ hkeys, heq ▸ hroom⟩

theorem Passing.read (old : List UInt8) :
    Triple (Passing w room) (read old) (fun bytes s => bytes.length = old.length ∧ Passing w room s)
      (Passing w 0) := by
  intro s hs
  unfold Loader.read
  by_cases hgood : s.good = true
  · rw [if_pos hgood]
    exact ⟨length_overwrite _ _, hs.stream rfl⟩
  · rw [if_neg hgood]
    exact ⟨rfl, hs⟩

theorem Passing.readArray {n : Nat} (old : FixedBytes n) :
    Triple (Passing w room) (readArray old) (fun _ => Passing w room) (Passing w 0) := by
  intro s hs
  unfold Loader.readArray
  by_cases hgood : s.good = true
  · rw [if_pos hgood]
    exact hs.stream rfl
  · rw [if_neg hgood]
    exact hs

theorem Passing.readU32 (old : UInt32) :
    Triple (Passing w room) (readU32 old) (fun _ => Passing w room) (Passing w 0) := by
  refine (Passing.read _).bind ?_
  intro bytes
  exact Triple.pure fun s hs => hs.2

theorem Passing.of_le {s : LoadState} {less : Nat} (h : Passing w room s) (hle : less ≤ room) :
    Passing w less s :=
  { h with room := by have := h.room; omega }

theorem Passing.throwIf (c : Prop) [Decidable c] (what : String) :
    Triple (Passing w room) (throwIf c what) (fun _ s => ¬ c ∧ Passing w room s) (Passing w 0) := by
  refine Triple.ite ?_ ?_
  · intro _
    exact Triple.throw fun s hs => hs.of_le (Nat.zero_le _)
  · intro hc
    exact Triple.pure fun s hs => ⟨hc, hs⟩

theorem Passing.wallet :
    Triple (Passing w room) wallet (fun _ => Passing w room) (Passing w 0) := fun _ hs => hs

theorem Passing.good : Triple (Passing w room) good (fun _ => Passing w room) (Passing w 0) :=
  fun _ hs => hs

theorem Passing.skip (n : Nat) :
    Triple (Passing w room) (skip n) (fun _ => Passing w room) (Passing w 0) :=
  fun _ hs => hs.stream rfl

theorem Passing.modifyWallet {f : WalletManager → WalletManager} {room' : Nat}
    (hf : ∀ v, Saveable v → v.addresses.length + room < 2 ^ 32 →
      Saveable (f v) ∧ SameKeys v (f v) ∧ (f v).addresses.length + room' < 2 ^ 32) :
    Triple (Passing w room) (modifyWallet f) (fun _ => Passing w room') (Passing w 0) := by
  intro s hs
  obtain ⟨hsave, hkeys, hroom⟩ := hf s.wallet hs.saveable hs.room
  exact ⟨hsave, ⟨hkeys.initialized.trans hs.keys.initialized,
    hkeys.unlockedSeed.trans hs.keys.unlockedSeed⟩, hroom⟩

theorem passing_readAddress :
    Triple (Passing w room) readAddress (fun addr s => addr.label.length < 2 ^ 32 ∧ Passing w room s)
      (Passing w 0) := by
  refine (Passing.readArray _).bind fun _ => (Passing.readU32 _).bind fun _ => ?_
  refine ((Passing.read _).imp (fun _ h => h) fun _ _ h => h.2).bind fun _ => ?_
  refine (Passing.readU32 _).bind fun labelLen => ?_
  refine (Passing.throwIf _ _).bind fun _ => ?_
  refine Triple.assume fun _ => (Passing.read _).bind fun label => Triple.pure ?_
  rintro s ⟨hlabel, hs⟩
  refine ⟨?_, hs⟩
  rw [hlabel, List.length_replicate]
  exact labelLen.toNat_lt

theorem passing_readAddresses : ∀ n room : Nat,
    Triple (Passing w (n + room)) (readAddresses n) (fun _ => Passing w room) (Passing w 0)
  | 0, room => Triple.pure fun s hs => hs.of_le (Nat.le_add_left _ _)
  | n + 1, room => by
    refine passing_readAddress.bind fun addr => Triple.assume fun hlabel => ?_
    refine Triple.bind (Passing.modifyWallet ?_) fun _ => passing_readAddresses n room
    intro v hv hroom
    have hlen : (v.addresses ++ [addr]).length = v.addresses.length + 1 := by simp
    refine ⟨⟨hv.entropy_lt, ?_, ?_, hv.map_le⟩, ⟨rfl, rfl⟩, ?_⟩
    · rw [hlen]
      omega
    · intro a ha
      rcases List.mem_append.mp ha with ha | ha
      · exact hv.labels_lt a ha
      · rw [List.mem_singleton.mp ha]
        exact hlabel
    · rw [hlen]
      omega

theorem length_markBelow (map : List UInt8) (n : Nat) : (markBelow map n).length = map.length := by
  unfold markBelow
  induction n with
  | zero => rfl
  | succ n ih => rw [List.range_succ, List.foldl_append, List.foldl_cons, List.foldl_nil,
      UsedMap.length_setBit, ih]

theorem passing_readUsedMap (version : UInt32) :
    Triple (Passing w room) (readUsedMap version) (fun _ => Passing w room) (Passing w 0) := by
  have hmap : ∀ (v : WalletManager) (map : List UInt8), Saveable v →
      v.addresses.length + room < 2 ^ 32 → map.length ≤ mapBytes →
        Saveable { v with noiseUsed := map } ∧ SameKeys v { v with noiseUsed := map } ∧
          v.addresses.length + room < 2 ^ 32 :=
    fun v map hv hroom hle => ⟨{ hv with map_le := hle }, ⟨rfl, rfl⟩, hroom⟩
  refine Triple.bind (Passing.modifyWallet fun v hv hroom => hmap v _ hv hroom ?_) fun _ => ?_
  · rw [List.length_replicate]
  refine Triple.ite (fun _ => ?_) fun _ => ?_
  · refine (Passing.readU32 _).bind fun usedLen => (Passing.throwIf _ _).bind fun _ => ?_
    refine Triple.assume fun hused => (Passing.read _).bind fun map => Triple.assume fun hlen => ?_
    refine Passing.modifyWallet fun v hv hroom => hmap v _ hv hroom ?_
    have hle := hv.map_le
    rw [List.length_append, List.length_drop, hlen, List.length_replicate]
    omega
  · refine Passing.modifyWallet fun v hv hroom => hmap v _ hv hroom ?_
    rw [length_markBelow]
    exact hv.map_le

theorem passing_skipBlobs : ∀ n : Nat,
    Triple (Passing w room) (skipBlobs n) (fun _ => Passing w room) (Passing w 0)
  | 0 => Triple.pure fun _ hs => hs
  | n + 1 => by
    refine (Passing.readU32 _).bind fun _ => Passing.good.bind fun _ => ?_
    refine Triple.ite (fun _ => ?_) fun _ => Triple.pure fun _ hs => hs
    exact (Passing.skip _).bind fun _ => passing_skipBlobs n

theorem passing_skipRecords : ∀ n : Nat,
    Triple (Passing w room) (skipRecords n) (fun _ => Passing w room) (Passing w 0)
  | 0 => Triple.pure fun _ hs => hs
  | n + 1 => by
    refine ((Passing.read _).imp (fun _ h => h) fun _ _ h => h.2).bind fun _ => ?_
    refine (Passing.readU32 _).bind fun _ => Passing.good.bind fun _ => ?_
    refine Triple.ite (fun _ => ?_) fun _ => Triple.pure fun _ hs => hs
    refine ((Passing.throwIf _ _).imp (fun _ h => h) fun _ _ h => h.2).bind fun _ => ?_
    exact (passing_skipBlobs _).bind fun _ => passing_skipRecords n

theorem passing_readHeader (version : UInt32) :
    Triple (Passing w room) (readHeader version) (fun _ => Passing w room) (Passing w 0) := by
  refine (Passing.throwIf _ _).bind fun _ => Triple.assume fun _ => ?_
  refine Passing.wallet.bind fun v => (Passing.readArray v.masterPubkey).bind fun masterPubkey => ?_
  refine Triple.bind (Passing.modifyWallet fun v hv hroom => ⟨{ hv with }, ⟨rfl, rfl⟩, hroom⟩) fun _ => ?_
  refine Passing.wallet.bind fun v => (Passing.readArray v.salt).bind fun salt => ?_
  refine Triple.bind (Passing.modifyWallet fun v hv hroom => ⟨{ hv with }, ⟨rfl, rfl⟩, hroom⟩) fun _ => ?_
  refine Passing.wallet.bind fun v => (Passing.readArray v.iv).bind fun iv => ?_
  refine Triple.bind (Passing.modifyWallet fun v hv hroom => ⟨{ hv with }, ⟨rfl, rfl⟩, hroom⟩) fun _ => ?_
  refine Passing.wallet.bind fun v => (Passing.readArray v.tag).bind fun tag => ?_
  refine Triple.bind (Passing.modifyWallet fun v hv hroom => ⟨{ hv with }, ⟨rfl, rfl⟩, hroom⟩) fun _ => ?_
  refine (Passing.readU32 _).bind fun entropySize => (Passing.throwIf _ _).bind fun _ => ?_
  refine Triple.assume fun _ => Passing.wallet.bind fun v => (Passing.read _).bind fun entropy => ?_
  refine Triple.assume fun hlen => Passing.modifyWallet fun v hv hroom => ?_
  refine ⟨{ hv with entropy_lt := ?_ }, ⟨rfl, rfl⟩, hroom⟩
  have hlt := entropySize.toNat_lt
  change entropy.length < 2 ^ 32
  rw [hlen, List.length_take]
  omega

/-- **Loading any file** keeps a wallet fit to be saved, and leaves its keys alone. -/
theorem passing_loadFromFile : Triple (Passing w 0) loadFromFile (fun _ => Passing w 0) (Passing w 0) := by
  refine (Passing.readU32 _).bind fun version => (passing_readHeader version).bind fun _ => ?_
  refine (Passing.readU32 _).bind fun addrCount => (Passing.throwIf _ _).bind fun _ => ?_
  refine Triple.assume fun hcount => ?_
  have hclear : Triple (Passing w 0) (modifyWallet fun v => { v with addresses := [] })
      (fun _ => Passing w (addrCount.toNat + 0)) (Passing w 0) := by
    refine Passing.modifyWallet fun v hv _ => ?_
    have hlt := addrCount.toNat_lt
    refine ⟨⟨hv.entropy_lt, Nat.two_pow_pos 32, fun _ h => absurd h List.not_mem_nil, hv.map_le⟩,
      ⟨rfl, rfl⟩, ?_⟩
    change 0 + (addrCount.toNat + 0) < 2 ^ 32
    omega
  refine hclear.bind fun _ => (passing_readAddresses _ 0).bind fun _ => ?_
  refine Passing.wallet.bind fun v => (Passing.readU32 v.nextKeyIndex).bind fun _ => ?_
  refine Triple.bind (Passing.modifyWallet fun v hv hroom => ⟨{ hv with }, ⟨rfl, rfl⟩, hroom⟩) fun _ => ?_
  refine Passing.wallet.bind fun v => (Passing.readU32 v.nextChangeIndex).bind fun _ => ?_
  refine Triple.bind (Passing.modifyWallet fun v hv hroom => ⟨{ hv with }, ⟨rfl, rfl⟩, hroom⟩) fun _ => ?_
  refine Passing.wallet.bind fun v => (Passing.readU32 v.noiseNextLeaf).bind fun _ => ?_
  refine Triple.bind (Passing.modifyWallet fun v hv hroom => ⟨{ hv with }, ⟨rfl, rfl⟩, hroom⟩) fun _ => ?_
  refine (Passing.throwIf _ _).bind fun _ => Triple.assume fun _ => ?_
  refine (passing_readUsedMap version).bind fun _ => (Passing.readU32 _).bind fun preparedCount => ?_
  refine Passing.good.bind fun _ => ?_
  refine Triple.ite (fun _ => ?_) fun _ => Triple.pure fun _ hs => hs
  exact (Passing.throwIf _ _).bind fun _ => Triple.assume fun _ => passing_skipRecords _

end Passing

/-! ## 2. A file that was saved -/

section Saved

variable {w : WalletManager} {rest : List UInt8}

/-- The state of the stream before bytes that are known. -/
abbrev before (bytes : List UInt8) (w : WalletManager) : LoadState :=
  { rest := bytes, good := true, wallet := w }

theorem read_append {old bytes : List UInt8} (h : old.length = bytes.length) :
    read old (before (bytes ++ rest) w) = .ok bytes (before rest w) := by
  have hle : old.length ≤ (bytes ++ rest).length := by
    rw [List.length_append]
    omega
  simp only [Loader.read, ↓reduceIte, h, List.take_left, List.drop_left, before]
  rw [List.drop_eq_nil_of_le hle, List.append_nil]
  simp

theorem readArray_append {n : Nat} (old : FixedBytes n) (a : FixedBytes n) :
    readArray old (before (a.data ++ rest) w) = .ok a (before rest w) := by
  have hlen : old.data.length = a.data.length := by rw [old.size_eq, a.size_eq]
  have hle : old.data.length ≤ (a.data ++ rest).length := by
    rw [List.length_append]
    omega
  have hdata : (a.data ++ rest).take old.data.length ++ old.data.drop (a.data ++ rest).length =
      a.data := by
    rw [hlen, List.take_left, List.drop_eq_nil_of_le (hlen ▸ hle), List.append_nil]
  have harray : ∀ hsize, (⟨(a.data ++ rest).take old.data.length ++
      old.data.drop (a.data ++ rest).length, hsize⟩ : FixedBytes n) = a :=
    fun _ => FixedBytes.ext hdata
  simp only [Loader.readArray, ↓reduceIte, before]
  rw [harray]
  simp only [hlen, List.drop_left]
  simp

theorem readU32_append (old v : UInt32) :
    readU32 old (before (writeLE32 v ++ rest) w) = .ok v (before rest w) := by
  have hread := @read_append w rest (writeLE32 old) (writeLE32 v) (by simp)
  have hvalue := readLE32_writeLE32 v []
  rw [List.append_nil] at hvalue
  simp only [Loader.readU32, Bind.bind, EStateM.bind, hread]
  exact congrArg (EStateM.Result.ok · _) hvalue

theorem bind_throwIf {α : Type} {c : Prop} [Decidable c] {what : String} {f : Unit → Loader α}
    {s : LoadState} {Q : α → LoadState → Prop} {E : LoadState → Prop} (hthrow : c → E s)
    (hf : ¬ c → Triple (· = s) (f ()) Q E) : Triple (· = s) (throwIf c what >>= f) Q E := by
  unfold Loader.throwIf
  by_cases hc : c
  · rw [if_pos hc]
    rintro _ rfl
    exact hthrow hc
  · rw [if_neg hc]
    exact Triple.bind_at rfl (hf hc)

theorem modifyWallet_before (f : WalletManager → WalletManager) (bytes : List UInt8) :
    modifyWallet f (before bytes w) = .ok () (before bytes (f w)) := rfl

theorem wallet_before (bytes : List UInt8) :
    wallet (before bytes w) = .ok w (before bytes w) := rfl

/-- **An address record is read back**, or its label is too long. -/
theorem readAddress_append {addr : WalletAddress} (hlabel : addr.label.length < 2 ^ 32) :
    Triple (· = before (addressBytes addr ++ rest) w) readAddress
      (fun a s => addr.label.length ≤ 256 ∧ a = addr.reloaded ∧ s = before rest w)
      (fun s => ¬ addr.label.length ≤ 256 ∧ s.wallet = w) := by
  have hword : (UInt32.ofNat addr.label.length).toNat = addr.label.length := by
    rw [UInt32.toNat_ofNat', Nat.mod_eq_of_lt hlabel]
  have hlong : UInt32.ofNat addr.label.length > 256 ↔ ¬ addr.label.length ≤ 256 := by
    rw [gt_iff_lt, UInt32.lt_iff_toNat_lt, hword]
    exact Nat.not_le.symm
  have hflag : decide ([if addr.isChange then 1 else 0] = [(1 : UInt8)]) = addr.isChange := by
    cases addr.isChange <;> decide
  simp only [addressBytes, List.append_assoc]
  refine Triple.bind_at (readArray_append _ addr.pubkeyHash) ?_
  refine Triple.bind_at (readU32_append _ addr.keyIndex) ?_
  refine Triple.bind_at (read_append rfl) ?_
  refine Triple.bind_at (readU32_append _ (UInt32.ofNat addr.label.length)) ?_
  refine bind_throwIf (fun hthrow => ⟨hlong.mp hthrow, rfl⟩) fun hshort => ?_
  refine Triple.bind_at (read_append (by rw [List.length_replicate, hword])) ?_
  rintro _ rfl
  exact ⟨Decidable.byContradiction (mt hlong.mpr hshort), by rw [hflag]; rfl, rfl⟩

/-- **The address records are read back**, or a label is too long. -/
theorem readAddresses_append : ∀ (addrs : List WalletAddress) {w : WalletManager},
    (∀ addr ∈ addrs, addr.label.length < 2 ^ 32) →
    Triple (· = before (addrs.flatMap addressBytes ++ rest) w) (readAddresses addrs.length)
      (fun _ s => (∀ addr ∈ addrs, addr.label.length ≤ 256) ∧ s = before rest
        { w with addresses := w.addresses ++ addrs.map WalletAddress.reloaded })
      (fun s => (¬ ∀ addr ∈ addrs, addr.label.length ≤ 256) ∧ s.wallet.noiseUsed = w.noiseUsed)
  | [], w, _ => by
    refine Triple.pure ?_
    rintro _ rfl
    simp
  | addr :: addrs, w, hlabels => by
    obtain ⟨hlabel, hrest⟩ := List.forall_mem_cons.mp hlabels
    rw [List.flatMap_cons, List.append_assoc]
    refine ((readAddress_append hlabel).imp_error ?_).bind fun a =>
      Triple.assume fun hshort => Triple.assume fun ha => ?_
    · rintro s ⟨hlong, hs⟩
      exact ⟨fun hall => hlong (hall addr (List.mem_cons_self ..)), by rw [hs]⟩
    rw [ha]
    refine Triple.bind_at (modifyWallet_before _ _) ?_
    refine ((readAddresses_append addrs hrest).imp (fun _ h => h) ?_).imp_error ?_
    · rintro _ s ⟨hall, hs⟩
      refine ⟨List.forall_mem_cons.mpr ⟨hshort, hall⟩, ?_⟩
      rw [hs]
      simp
    · rintro s ⟨hlong, hs⟩
      exact ⟨fun hall => hlong (List.forall_mem_cons.mp hall).2, hs⟩

/-- The entropy has a size the reader accepts. -/
def EntropyFits (size : Nat) : Prop :=
  size ≠ 0 ∧ size ≤ MAX_ENCRYPTED_ENTROPY_SIZE ∧ size % ENC_BLOCK_SIZE = 0

instance (size : Nat) : Decidable (EntropyFits size) := inferInstanceAs (Decidable (_ ∧ _))

theorem entropyFits_ofNat {size : Nat} (h : size < 2 ^ 32) :
    (UInt32.ofNat size = 0 ∨ (UInt32.ofNat size).toNat > MAX_ENCRYPTED_ENTROPY_SIZE ∨
      (UInt32.ofNat size).toNat % ENC_BLOCK_SIZE ≠ 0) ↔ ¬ EntropyFits size := by
  have hword : (UInt32.ofNat size).toNat = size := by rw [UInt32.toNat_ofNat', Nat.mod_eq_of_lt h]
  have hzero : UInt32.ofNat size = 0 ↔ size = 0 := by
    rw [← UInt32.toNat_inj, hword]
    rfl
  rw [hzero, hword, EntropyFits]
  omega

/-- The wallet `w` has become `v` when the header of `saved` is read. -/
structure HeaderRead (saved w v : WalletManager) : Prop where
  masterPubkey : v.masterPubkey = saved.masterPubkey
  salt : v.salt = saved.salt
  iv : v.iv = saved.iv
  tag : v.tag = saved.tag
  encryptedEntropy : v.encryptedEntropy = saved.encryptedEntropy
  noiseUsed : v.noiseUsed = w.noiseUsed

/-- **The header is read back**, or the entropy has a wrong size. -/
theorem readHeader_append {saved : WalletManager} (hentropy : saved.encryptedEntropy.length < 2 ^ 32) :
    Triple (· = before (saved.masterPubkey.data ++ (saved.salt.data ++ (saved.iv.data ++
        (saved.tag.data ++ (writeLE32 (UInt32.ofNat saved.encryptedEntropy.length) ++
          (saved.encryptedEntropy ++ rest)))))) w)
      (readHeader WALLET_VERSION)
      (fun _ s => EntropyFits saved.encryptedEntropy.length ∧
        ∃ v, HeaderRead saved w v ∧ s = before rest v)
      (fun s => ¬ EntropyFits saved.encryptedEntropy.length ∧ s.wallet.noiseUsed = w.noiseUsed) := by
  have hword : (UInt32.ofNat saved.encryptedEntropy.length).toNat = saved.encryptedEntropy.length := by
    rw [UInt32.toNat_ofNat', Nat.mod_eq_of_lt hentropy]
  have hsize := entropyFits_ofNat hentropy
  have hbuffer : ∀ (old : List UInt8) (n : Nat), ((UsedMap.grow old n).take n).length = n := by
    intro old n
    rw [List.length_take, UsedMap.grow, List.length_append, List.length_replicate]
    omega
  refine bind_throwIf (fun hversion => absurd rfl hversion.1) fun _ => ?_
  refine Triple.bind_at (wallet_before _) (Triple.bind_at (readArray_append _ saved.masterPubkey) ?_)
  refine Triple.bind_at (modifyWallet_before _ _) (Triple.bind_at (wallet_before _) ?_)
  refine Triple.bind_at (readArray_append _ saved.salt) ?_
  refine Triple.bind_at (modifyWallet_before _ _) (Triple.bind_at (wallet_before _) ?_)
  refine Triple.bind_at (readArray_append _ saved.iv) ?_
  refine Triple.bind_at (modifyWallet_before _ _) (Triple.bind_at (wallet_before _) ?_)
  refine Triple.bind_at (readArray_append _ saved.tag) ?_
  refine Triple.bind_at (modifyWallet_before _ _) (Triple.bind_at (readU32_append _ _) ?_)
  refine bind_throwIf (fun hbad => ⟨hsize.mp hbad, rfl⟩) fun hgood => ?_
  refine Triple.bind_at (wallet_before _) ?_
  refine Triple.bind_at (read_append (by rw [hbuffer, hword])) ?_
  rintro _ rfl
  refine ⟨Decidable.byContradiction (mt hsize.mpr hgood), _, ?_, rfl⟩
  exact ⟨rfl, rfl, rfl, rfl, rfl, rfl⟩

theorem readUsedMap_append {saved : WalletManager} (hmap : saved.noiseUsed.length ≤ mapBytes)
    {E : LoadState → Prop} :
    Triple (· = before (writeLE32 (UInt32.ofNat saved.trimmedMap.length) ++ (saved.trimmedMap ++ rest)) w)
      (readUsedMap WALLET_VERSION)
      (fun _ s => ∃ map, (∀ i, map.getD i 0 = saved.noiseUsed.getD i 0) ∧
        s = before rest { w with noiseUsed := map }) E := by
  have htrim : saved.trimmedMap.length ≤ mapBytes :=
    (List.rdropWhile_prefix _ _).length_le.trans hmap
  have hword : (UInt32.ofNat saved.trimmedMap.length).toNat = saved.trimmedMap.length := by
    have hbytes : mapBytes = 131072 := by decide
    rw [UInt32.toNat_ofNat', Nat.mod_eq_of_lt (by omega)]
  refine Triple.bind_at (modifyWallet_before _ _) ?_
  rw [if_pos (by decide)]
  refine Triple.bind_at (readU32_append _ _) ?_
  rw [hword, Loader.throwIf, if_neg (Nat.not_lt.mpr htrim)]
  refine Triple.bind_at rfl (Triple.bind_at (read_append (List.length_replicate ..)) ?_)
  rintro _ rfl
  refine ⟨_, ?_, rfl⟩
  intro i
  change (saved.trimmedMap ++ (List.replicate mapBytes 0).drop saved.trimmedMap.length).getD i 0 = _
  rw [List.drop_replicate]
  exact (UsedMap.getD_grow saved.trimmedMap mapBytes i).trans (UsedMap.getD_rdropWhile _ i)

/-- The bounds the reader checks. -/
structure Readable (w : WalletManager) : Prop where
  entropy : EntropyFits w.encryptedEntropy.length
  addresses_le : w.addresses.length ≤ MAX_ADDRESSES
  labels_le : ∀ addr ∈ w.addresses, addr.label.length ≤ 256
  pointer_le : w.noiseNextLeaf ≤ NOISE_LEAF_COUNT

/-- What the file of a wallet brings back. -/
structure Reloaded (saved w : WalletManager) : Prop where
  masterPubkey : w.masterPubkey = saved.masterPubkey
  salt : w.salt = saved.salt
  iv : w.iv = saved.iv
  tag : w.tag = saved.tag
  encryptedEntropy : w.encryptedEntropy = saved.encryptedEntropy
  addresses : w.addresses = saved.addresses.map WalletAddress.reloaded
  nextKeyIndex : w.nextKeyIndex = saved.nextKeyIndex
  nextChangeIndex : w.nextChangeIndex = saved.nextChangeIndex
  noiseNextLeaf : w.noiseNextLeaf = saved.noiseNextLeaf
  noiseUsed : ∀ i, w.noiseUsed.getD i 0 = saved.noiseUsed.getD i 0

/-- **A wallet file that was saved** brings everything back, or one of the reader's bounds is
violated and the map is not touched. -/
theorem loadFromFile_saveBytes {saved : WalletManager} (hsaved : Saveable saved) (w : WalletManager) :
    Triple (· = before saved.saveBytes w) loadFromFile
      (fun _ s => Readable saved ∧ Reloaded saved s.wallet)
      (fun s => ¬ Readable saved ∧ s.wallet.noiseUsed = w.noiseUsed) := by
  have hword : (UInt32.ofNat saved.addresses.length).toNat = saved.addresses.length := by
    rw [UInt32.toNat_ofNat', Nat.mod_eq_of_lt hsaved.addresses_lt]
  have hprepared : writeLE32 0 = writeLE32 0 ++ [] := (List.append_nil _).symm
  unfold saveBytes
  rw [hprepared]
  refine Triple.bind_at (readU32_append _ _) ?_
  refine ((readHeader_append hsaved.entropy_lt).imp_error ?_).bind fun _ =>
    Triple.assume fun hentropy => Triple.exists_pre fun v => Triple.assume fun hv => ?_
  · intro s hs
    exact ⟨fun hread => hs.1 hread.entropy, hs.2⟩
  rw [← hv.noiseUsed]
  refine Triple.bind_at (readU32_append _ _) (bind_throwIf ?_ fun hcount => ?_)
  · intro hmany
    rw [hword] at hmany
    exact ⟨fun hread => Nat.not_le.mpr hmany hread.addresses_le, rfl⟩
  refine Triple.bind_at (modifyWallet_before _ _) ?_
  rw [hword] at hcount ⊢
  refine ((readAddresses_append saved.addresses hsaved.labels_lt).imp_error ?_).bind fun _ =>
    Triple.assume fun hlabels => ?_
  · intro s hs
    exact ⟨fun hread => hs.1 hread.labels_le, hs.2⟩
  refine Triple.bind_at (wallet_before _) (Triple.bind_at (readU32_append _ _) ?_)
  refine Triple.bind_at (modifyWallet_before _ _) (Triple.bind_at (wallet_before _) ?_)
  refine Triple.bind_at (readU32_append _ _) (Triple.bind_at (modifyWallet_before _ _) ?_)
  refine Triple.bind_at (wallet_before _) (Triple.bind_at (readU32_append _ _) ?_)
  refine Triple.bind_at (modifyWallet_before _ _) (bind_throwIf ?_ fun hpointer => ?_)
  · intro hbeyond
    exact ⟨fun hread => absurd hbeyond (UInt32.not_lt.mpr hread.pointer_le), rfl⟩
  refine (readUsedMap_append hsaved.map_le).bind fun _ => Triple.exists_pre fun map => ?_
  refine Triple.assume fun hmap => Triple.bind_at (readU32_append _ _) (Triple.bind_at rfl ?_)
  refine Triple.ite (fun h => absurd h.2 (by decide)) fun _ => Triple.pure ?_
  rintro _ rfl
  exact ⟨⟨hentropy, Nat.not_lt.mp hcount, hlabels, UInt32.not_lt.mp hpointer⟩,
    ⟨hv.masterPubkey, hv.salt, hv.iv, hv.tag, hv.encryptedEntropy, rfl, rfl, rfl, rfl, hmap⟩⟩

end Saved

end WalletManager

end Moneu
