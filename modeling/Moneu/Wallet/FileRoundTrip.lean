/-
# The wallet file round trip

A wallet that is created, unlocked and used in one process, and the file it writes on the way.

The writer checks nothing.  Of the reader's bounds all but one hold in every wallet a process can
come to (`Ordinary`): the entropy is padded to 48 bytes, there are at most a million addresses, the
pointer stays inside the pool.  The one that does not hold is the bound on LABELS: `getnewaddress`
takes a label of any length, the file holds it, and `LoadFromFile` throws at more than 256 bytes.

* `roundTrips_iff`: in every session, the file of a wallet that was saved brings it back if and
  only if no label is longer than 256 bytes;
* `long_label`: one address with a label of 257 bytes, and the file cannot be loaded any more.
-/
import Moneu.Wallet.LeafSync

namespace Moneu

open NetParams

namespace WalletManager

/-! ## 1. Sessions -/

/-- `RPC_MAX_BODY_SIZE`: a longer request is refused before it is parsed. -/
def RPC_MAX_BODY_SIZE : Nat := MAX_BLOCK_SIZE * 2 + 4096

/-- What a process can be asked to do with a wallet. -/
inductive Call where
  | create (hasNoise : Bool) (passphrase : List UInt8) (r : Randomness)
  | unlock (passphrase : List UInt8)
  | lock
  | loadNoiseFile (file : Option (List UInt8)) (passphrase : List UInt8)
  | getNewAddress (label : List UInt8)
  | createTransaction (toAddress : List UInt8) (amount fee : Int64) (u : UTXOSet)
      (chainHeight : UInt32) (poolTxs : List Transaction) (message : List UInt8)
  | signTransaction (tx : Transaction)
  | syncNoiseLeafPointer (u : UTXOSet)

section Session

variable [WalletCrypto]

/-- One call: the wallet afterwards, and whether the call came to `SaveToFile`. -/
def perform (w : WalletManager) : Call → WalletManager × Bool
  | .create hasNoise passphrase r =>
    match w.createStage hasNoise passphrase r with
    | (w, .error _) => (w, false)
    | (w, .ok _) => (w, true)
  | .unlock passphrase => ((w.unlock passphrase).1, false)
  | .lock => (w.lock, false)
  -- `walletunlock` loads the noise file, once `Unlock` has found a wallet
  | .loadNoiseFile file passphrase =>
    if w.initialized then ((w.loadNoiseFile file passphrase).1, false) else (w, false)
  | .getNewAddress label =>
    if label.length > RPC_MAX_BODY_SIZE then (w, false)
    else
      match w.getNewAddress label with
      | .error _ => (w, false)
      | .ok (w, _) => (w, true)
  -- the file is written for a change address; what is held afterwards is not in the file
  | .createTransaction toAddress amount fee u chainHeight poolTxs message =>
    let w' := (w.createTransaction toAddress amount fee u chainHeight poolTxs message).1
    (w', w'.addresses.length > w.addresses.length)
  | .signTransaction tx =>
    match w.signStage tx with
    | (w, _, .ended _) => (w, false)
    | (w, _, .saving) => (w, true)
  | .syncNoiseLeafPointer u =>
    let (w, moved) := w.syncNoiseLeafPointer u
    (w, moved > 0)

/-- A process, with the wallets whose `SaveToFile` returned true so far. -/
structure Session where
  wallet : WalletManager
  saved : List WalletManager

/-- One call; the flag says whether the wallet file can be written. -/
def Session.step (m : Session) (call : Call × Bool) : Session :=
  let (w, writes) := m.wallet.perform call.1
  { wallet := w, saved := if writes && call.2 then w :: m.saved else m.saved }

theorem Session.step_eq {m : Session} {call : Call} {w : WalletManager} {writes : Bool}
    (h : m.wallet.perform call = (w, writes)) (saves : Bool) :
    m.step (call, saves) =
      { wallet := w, saved := if writes && saves then w :: m.saved else m.saved } := by
  unfold Session.step
  rw [h]

/-- A new process and the calls made to it. -/
def Session.run (calls : List (Call × Bool)) : Session :=
  calls.foldl Session.step { wallet := fresh, saved := [] }

end Session

/-! ## 2. The invariant -/

/-- **What holds in every wallet of a process.** -/
structure Ordinary (w : WalletManager) : Prop where
  seeded : w.unlockedSeed ≠ none → w.initialized = true
  loaded : w.noiseLoaded = true → w.initialized = true
  entropy : w.initialized = true → EntropyFits w.encryptedEntropy.length
  addresses_le : w.addresses.length ≤ MAX_ADDRESSES
  labels_le : ∀ addr ∈ w.addresses, addr.label.length ≤ RPC_MAX_BODY_SIZE
  texts : ∀ addr ∈ w.addresses, addr.reloaded = addr
  pointer_le : w.noiseNextLeaf ≤ NOISE_LEAF_COUNT
  map_le : w.noiseUsed.length ≤ mapBytes
  pool : ∀ nf, w.noiseFile = some nf → nf.leaves.length = NOISE_LEAF_COUNT.toNat

theorem ordinary_fresh : Ordinary fresh where
  seeded h := absurd rfl h
  loaded h := absurd h Bool.false_ne_true
  entropy h := absurd h Bool.false_ne_true
  addresses_le := Nat.zero_le _
  labels_le _ h := absurd h List.not_mem_nil
  texts _ h := absurd h List.not_mem_nil
  pointer_le := by decide
  map_le := Nat.zero_le _
  pool _ h := by cases h

section Steps

variable {w : WalletManager}

theorem Ordinary.held (h : Ordinary w) (held : AList fun _ : OutPoint => Bytes32) :
    Ordinary { w with heldOutpoints := held } := { h with }

theorem Ordinary.append (h : Ordinary w) {addr : WalletAddress} (nextKeyIndex nextChangeIndex : UInt32)
    (hroom : w.addresses.length < MAX_ADDRESSES) (htext : addr.reloaded = addr)
    (hlabel : addr.label.length ≤ RPC_MAX_BODY_SIZE) :
    Ordinary { w with nextKeyIndex, nextChangeIndex, addresses := w.addresses ++ [addr] } := by
  have hsplit : ∀ a ∈ w.addresses ++ [addr], a ∈ w.addresses ∨ a = addr := by
    intro a ha
    rwa [List.mem_append, List.mem_singleton] at ha
  refine { h with addresses_le := ?_, labels_le := ?_, texts := ?_ }
  · rw [List.length_append, List.length_singleton]
    omega
  · intro a ha
    rcases hsplit a ha with ha | rfl
    · exact h.labels_le a ha
    · exact hlabel
  · intro a ha
    rcases hsplit a ha with ha | rfl
    · exact h.texts a ha
    · exact htext

theorem Ordinary.consume (h : Ordinary w) {nf : NoiseFile}
    (hpool : nf.leaves.length = NOISE_LEAF_COUNT.toNat) {leaves : List UInt32}
    (hrange : ∀ i ∈ leaves, i < NOISE_LEAF_COUNT) :
    Ordinary (w.consume nf leaves) ∧ (w.consume nf leaves).initialized = w.initialized := by
  obtain ⟨map, hmap⟩ := exists_foldl_mark leaves w
  have hlen : (leaves.foldl markNoiseLeafUsed w).noiseUsed.length ≤ mapBytes := by
    refine List.foldlRecOn (motive := fun v : WalletManager => v.noiseUsed.length ≤ mapBytes) leaves _ h.map_le ?_
    intro v hv i _
    exact length_markNoiseLeafUsed hv i
  obtain ⟨hleaves, _, _⟩ := NoiseFile.foldl_markLeafUsed leaves nf (by
    intro i hi
    rw [hpool]
    exact UInt32.lt_iff_toNat_lt.mp (hrange i hi))
  unfold WalletManager.consume
  rw [hmap] at hlen ⊢
  refine ⟨{ h with map_le := hlen, pool := ?_ }, rfl⟩
  intro nf' hnf'
  cases hnf'
  rw [hleaves]
  exact hpool

section Calls

variable [WalletCrypto]

/-- **`Create`** leaves a wallet with 48 bytes of entropy. -/
theorem Ordinary.createStage (h : Ordinary w) (hasNoise : Bool) (passphrase : List UInt8)
    (r : Randomness) :
    Ordinary (w.createStage hasNoise passphrase r).1 ∧
      ∀ mnemonic, (w.createStage hasNoise passphrase r).2 = .ok mnemonic →
        (w.createStage hasNoise passphrase r).1.initialized = true := by
  unfold WalletManager.createStage
  split
  case isTrue => exact ⟨h, fun _ hok => by cases hok⟩
  case isFalse hnew =>
    split
    case isTrue => exact ⟨h, fun _ hok => by cases hok⟩
    case isFalse =>
      split
      case h_1 => exact ⟨h, fun _ hok => by cases hok⟩
      case h_2 mnemonic _ =>
        split
        case h_1 => exact ⟨h, fun _ hok => by cases hok⟩
        case h_2 seed _ =>
          dsimp only
          split
          case h_1 => exact ⟨{ h with }, fun _ hok => by cases hok⟩
          case h_2 tag cipher hencrypt =>
            have hlen := WalletCrypto.length_encrypt hencrypt
            rw [r.entropy.size_eq] at hlen
            refine ⟨{ h with seeded := fun _ => rfl, loaded := fun _ => rfl, entropy := ?_ },
              fun _ _ => rfl⟩
            intro _
            change EntropyFits cipher.length
            rw [hlen]
            decide

theorem Ordinary.unlock (h : Ordinary w) (passphrase : List UInt8) :
    Ordinary (w.unlock passphrase).1 := by
  unfold WalletManager.unlock
  split
  case isTrue => exact h
  case isFalse hinit =>
    split
    case h_1 => exact h
    case h_2 => exact h
    case h_3 => exact { h with seeded := fun _ => by simpa using hinit }

theorem Ordinary.loadNoiseFile (h : Ordinary w) (hinit : w.initialized = true)
    (file : Option (List UInt8)) (passphrase : List UInt8) :
    Ordinary (w.loadNoiseFile file passphrase).1 := by
  unfold WalletManager.loadNoiseFile
  split
  case h_1 => exact h
  case h_2 =>
    split
    case h_1 => exact h
    case h_2 raw _ =>
      split
      case isTrue => exact h
      case isFalse =>
        split
        case h_1 => exact h
        case h_2 nf hnf =>
          refine { h with loaded := fun _ => hinit, pool := ?_ }
          intro nf' hnf'
          cases hnf'
          change (nf.setNextLeaf _).leaves.length = _
          rw [NoiseFile.leaves_setNextLeaf]
          exact NoiseFile.length_generate hnf

/-- **`GetNewAddress`** adds an address to an unlocked wallet. -/
theorem getNewAddress_ok {label : List UInt8} {w' : WalletManager} {addr : WalletAddress}
    (h : w.getNewAddress label = .ok (w', addr)) :
    w.addresses.length < MAX_ADDRESSES ∧ w.unlockedSeed ≠ none ∧ addr.reloaded = addr ∧
      addr.label = label ∧
      w' = { w with nextKeyIndex := w.nextKeyIndex + 1, addresses := w.addresses ++ [addr] } := by
  unfold WalletManager.getNewAddress at h
  split at h
  case isTrue => cases h
  case isFalse hroom =>
    split at h
    case h_2 => cases h
    case h_1 seed _ hseed =>
      split at h
      case isTrue => cases h
      case isFalse =>
        cases h
        exact ⟨Nat.not_le.mp hroom, by rw [hseed]; simp, rfl, rfl, rfl⟩

theorem getNewAddress_unlocked {seed : Bytes64} (label : List UInt8) (hlocked : w.locked = false)
    (hseed : w.unlockedSeed = some seed) (hloaded : w.noiseLoaded = true)
    (hroom : w.addresses.length < MAX_ADDRESSES) :
    w.getNewAddress label = .ok
      ({ w with
          nextKeyIndex := w.nextKeyIndex + 1
          addresses := w.addresses ++ [w.addressOf seed w.nextKeyIndex false label] },
        w.addressOf seed w.nextKeyIndex false label) := by
  unfold WalletManager.getNewAddress
  rw [if_neg (Nat.not_le.mpr hroom), hlocked, hseed, hloaded]
  rfl

theorem getChangeAddress_ok {w' : WalletManager} {addr : WalletAddress}
    (h : w.getChangeAddress = .ok (w', addr)) :
    w.addresses.length < MAX_ADDRESSES ∧ w.unlockedSeed ≠ none ∧ addr.reloaded = addr ∧
      addr.label = "change".toUTF8.toList ∧
      w' = { w with nextChangeIndex := w.nextChangeIndex + 1, addresses := w.addresses ++ [addr] } := by
  unfold WalletManager.getChangeAddress at h
  split at h
  case isTrue => cases h
  case isFalse hroom =>
    split at h
    case h_2 => cases h
    case h_1 seed _ hseed =>
      split at h
      case isTrue => cases h
      case isFalse =>
        cases h
        exact ⟨Nat.not_le.mp hroom, by rw [hseed]; simp, rfl, rfl, rfl⟩

omit [WalletCrypto] in
theorem change_label_le : "change".toUTF8.toList.length ≤ RPC_MAX_BODY_SIZE := by decide +kernel

/-- **Inversion of `CreateTransaction`** for every way it can end: it may have taken a change
address, and it may hold outpoints. -/
theorem createTransaction_wallet (w : WalletManager) (toAddress : List UInt8) (amount fee : Int64)
    (u : UTXOSet) (chainHeight : UInt32) (poolTxs : List Transaction) (message : List UInt8) :
    ∃ w₁ held, (w₁ = w ∨ ∃ addr, w.getChangeAddress = .ok (w₁, addr)) ∧
      (w.createTransaction toAddress amount fee u chainHeight poolTxs message).1 =
        { w₁ with heldOutpoints := held } := by
  have hsame : ∃ w₁ held, (w₁ = w ∨ ∃ addr, w.getChangeAddress = .ok (w₁, addr)) ∧
      w = { w₁ with heldOutpoints := held } := ⟨w, w.heldOutpoints, .inl rfl, rfl⟩
  unfold createTransaction
  split
  case h_1 => exact hsame
  case h_2 seed toPubkeyHash _ =>
    dsimp only
    split
    case isTrue => exact hsame
    case isFalse =>
      split
      case h_1 => exact hsame
      case h_2 inputs _ =>
        split
        case isTrue => exact hsame
        case isFalse =>
          split
          case h_1 => exact hsame
          case h_2 w₁ change hchange =>
            have hw₁ : w₁ = w ∨ ∃ addr, w.getChangeAddress = .ok (w₁, addr) := by
              unfold changeOutputs at hchange
              split at hchange
              case isFalse =>
                cases hchange
                exact .inl rfl
              case isTrue =>
                cases hget : w.getChangeAddress with
                | error what =>
                  rw [hget] at hchange
                  cases hchange
                | ok r =>
                  rw [hget] at hchange
                  cases hchange
                  exact .inr ⟨r.2, rfl⟩
            split
            case h_1 => exact ⟨w₁, w₁.heldOutpoints, hw₁, rfl⟩
            case h_2 built _ => exact ⟨w₁, _, hw₁, rfl⟩

theorem Ordinary.createTransaction (h : Ordinary w) (toAddress : List UInt8) (amount fee : Int64)
    (u : UTXOSet) (chainHeight : UInt32) (poolTxs : List Transaction) (message : List UInt8) :
    Ordinary (w.createTransaction toAddress amount fee u chainHeight poolTxs message).1 ∧
      ((w.createTransaction toAddress amount fee u chainHeight poolTxs message).1.addresses.length >
          w.addresses.length →
        (w.createTransaction toAddress amount fee u chainHeight poolTxs message).1.initialized =
          true) := by
  obtain ⟨w₁, held, hw₁, hafter⟩ :=
    createTransaction_wallet w toAddress amount fee u chainHeight poolTxs message
  rw [hafter]
  rcases hw₁ with rfl | ⟨addr, hget⟩
  · exact ⟨h.held held, fun hlt => absurd hlt (Nat.lt_irrefl _)⟩
  · obtain ⟨hroom, hseed, htext, hlabel, rfl⟩ := getChangeAddress_ok hget
    refine ⟨(h.append _ _ hroom htext ?_).held held, fun _ => h.seeded hseed⟩
    rw [hlabel]
    exact change_label_le

theorem Ordinary.signStage (h : Ordinary w) (tx : Transaction) :
    Ordinary (w.signStage tx).1 ∧
      ((w.signStage tx).2.2 = .saving → (w.signStage tx).1.initialized = true) := by
  have hstage := staged_signStage w tx
  generalize w.signStage tx = result at hstage
  cases hstage with
  | refused held signed outcome hout => exact ⟨h.held held, fun hsaving => by cases hsaving⟩
  | coinbase held seed signed _ _ => exact ⟨h.held held, fun hsaving => by cases hsaving⟩
  | proven held seed nf signed proven hseed hnf hsigned hinputs hout hnodup =>
    obtain ⟨hordinary, hinit⟩ := (h.held held).consume (h.pool nf hnf)
      fun i hi => (Proves.leaves hinputs i hi).1
    refine ⟨hordinary, fun _ => hinit.trans (h.seeded ?_)⟩
    rw [hseed]
    simp

end Calls

theorem Ordinary.syncNoiseLeafPointer (h : Ordinary w) (u : UTXOSet) :
    Ordinary (w.syncNoiseLeafPointer u).1 ∧
      ((w.syncNoiseLeafPointer u).2 > 0 → (w.syncNoiseLeafPointer u).1.initialized = true) := by
  unfold WalletManager.syncNoiseLeafPointer
  split
  case h_2 => exact ⟨h, fun hmoved => absurd hmoved (UInt32.lt_irrefl _)⟩
  case h_1 nf hloaded hnf =>
    have hpool := h.pool nf hnf
    split
    case h_1 => exact ⟨h, fun hmoved => absurd hmoved (UInt32.lt_irrefl _)⟩
    case h_2 highest _ =>
      dsimp only
      have hleaves := NoiseFile.leaves_setNextLeaf nf (highest + 1)
      split
      case isTrue hmoved =>
        have hle := NoiseFile.nextLeaf_le_of_moved hpool hmoved
        have hpointer : Ordinary { w with noiseNextLeaf := (nf.setNextLeaf (highest + 1)).nextLeaf } :=
          { h with pointer_le := hle }
        obtain ⟨hordinary, hinit⟩ := hpointer.consume (hleaves ▸ hpool)
          fun i hi => UInt32.lt_of_lt_of_le (mem_spentBelow.mp hi).1 hle
        exact ⟨hordinary, fun _ => hinit.trans (h.loaded hloaded)⟩
      case isFalse hstays =>
        refine ⟨{ h with pool := ?_ }, fun _ => h.loaded hloaded⟩
        intro nf' hnf'
        cases hnf'
        rw [hleaves]
        exact hpool

end Steps

/-! ## 3. Whole sessions -/

section Sessions

variable [WalletCrypto]

/-- **One call keeps the invariant**, and only a wallet that exists is saved. -/
theorem Ordinary.perform {w : WalletManager} (h : Ordinary w) (call : Call) :
    Ordinary (w.perform call).1 ∧
      ((w.perform call).2 = true → (w.perform call).1.initialized = true) := by
  cases call with
  | create hasNoise passphrase r =>
    obtain ⟨hordinary, hinit⟩ := h.createStage hasNoise passphrase r
    dsimp only [WalletManager.perform]
    split
    case h_1 w' _ hstage =>
      rw [hstage] at hordinary
      exact ⟨hordinary, fun hwrites => by cases hwrites⟩
    case h_2 w' mnemonic hstage =>
      rw [hstage] at hordinary hinit
      exact ⟨hordinary, fun _ => hinit mnemonic rfl⟩
  | unlock passphrase => exact ⟨h.unlock passphrase, fun hwrites => by cases hwrites⟩
  | lock =>
    exact ⟨{ h with seeded := fun hne => absurd rfl hne }, fun hwrites => by cases hwrites⟩
  | loadNoiseFile file passphrase =>
    dsimp only [WalletManager.perform]
    split
    case isTrue hinit => exact ⟨h.loadNoiseFile hinit file passphrase, fun hwrites => by cases hwrites⟩
    case isFalse => exact ⟨h, fun hwrites => by cases hwrites⟩
  | getNewAddress label =>
    dsimp only [WalletManager.perform]
    split
    case isTrue => exact ⟨h, fun hwrites => by cases hwrites⟩
    case isFalse hbody =>
      split
      case h_1 => exact ⟨h, fun hwrites => by cases hwrites⟩
      case h_2 w' addr hget =>
        obtain ⟨hroom, hseed, htext, hlabel, rfl⟩ := getNewAddress_ok hget
        exact ⟨h.append _ _ hroom htext (by rw [hlabel]; omega), fun _ => h.seeded hseed⟩
  | createTransaction toAddress amount fee u chainHeight poolTxs message =>
    obtain ⟨hordinary, hinit⟩ :=
      h.createTransaction toAddress amount fee u chainHeight poolTxs message
    exact ⟨hordinary, fun hwrites => hinit (of_decide_eq_true hwrites)⟩
  | signTransaction tx =>
    obtain ⟨hordinary, hinit⟩ := h.signStage tx
    dsimp only [WalletManager.perform]
    split
    case h_1 w' signed outcome hstage =>
      rw [hstage] at hordinary
      exact ⟨hordinary, fun hwrites => by cases hwrites⟩
    case h_2 w' signed hstage =>
      rw [hstage] at hordinary hinit
      exact ⟨hordinary, fun _ => hinit rfl⟩
  | syncNoiseLeafPointer u =>
    obtain ⟨hordinary, hinit⟩ := h.syncNoiseLeafPointer u
    exact ⟨hordinary, fun hwrites => hinit (of_decide_eq_true hwrites)⟩

theorem ordinary_run (calls : List (Call × Bool)) :
    Ordinary (Session.run calls).wallet ∧
      ∀ w ∈ (Session.run calls).saved, Ordinary w ∧ w.initialized = true := by
  refine List.foldlRecOn (motive := fun m : Session =>
    Ordinary m.wallet ∧ ∀ w ∈ m.saved, Ordinary w ∧ w.initialized = true) calls _
    ⟨ordinary_fresh, fun _ hw => absurd hw List.not_mem_nil⟩ ?_
  rintro m ⟨hm, hsaved⟩ ⟨call, saves⟩ _
  obtain ⟨hordinary, hinit⟩ := hm.perform call
  refine ⟨hordinary, ?_⟩
  intro w hw
  change w ∈ if (m.wallet.perform call).2 && saves then _ else _ at hw
  split at hw
  case isFalse => exact hsaved w hw
  case isTrue hwrites =>
    rcases List.mem_cons.mp hw with rfl | hw
    · exact ⟨hordinary, hinit (Bool.and_eq_true_iff.mp hwrites).1⟩
    · exact hsaved w hw

end Sessions

/-! ## 4. The round trip -/

/-- What is to come back: everything in the file, and for each leaf whether it is used. -/
structure Restored (saved w : WalletManager) : Prop where
  masterPubkey : w.masterPubkey = saved.masterPubkey
  salt : w.salt = saved.salt
  iv : w.iv = saved.iv
  tag : w.tag = saved.tag
  encryptedEntropy : w.encryptedEntropy = saved.encryptedEntropy
  addresses : w.addresses = saved.addresses
  nextKeyIndex : w.nextKeyIndex = saved.nextKeyIndex
  nextChangeIndex : w.nextChangeIndex = saved.nextChangeIndex
  noiseNextLeaf : w.noiseNextLeaf = saved.noiseNextLeaf
  used : ∀ i, w.isNoiseLeafUsed i = saved.isNoiseLeafUsed i

/-- `LoadFromFile` in a fresh process succeeds on the file of a wallet, and restores it. -/
def RoundTrips (saved : WalletManager) : Prop :=
  ∃ s, loadFromFile (before saved.saveBytes fresh) = .ok () s ∧ Restored saved s.wallet

theorem Ordinary.saveable {w : WalletManager} (h : Ordinary w) (hinit : w.initialized = true) :
    Saveable w where
  entropy_lt := by
    have hle := (h.entropy hinit).2.1
    have hmax : MAX_ENCRYPTED_ENTROPY_SIZE = 48 := rfl
    omega
  addresses_lt := by
    have hle := h.addresses_le
    have hmax : MAX_ADDRESSES = 1000000 := rfl
    omega
  labels_lt addr haddr := by
    have hle := h.labels_le addr haddr
    have hmax : RPC_MAX_BODY_SIZE = 12587008 := by decide
    omega
  map_le := h.map_le

theorem Ordinary.roundTrips {w : WalletManager} (h : Ordinary w) (hinit : w.initialized = true) :
    RoundTrips w ↔ ∀ addr ∈ w.addresses, addr.label.length ≤ 256 := by
  have hload := (loadFromFile_saveBytes (h.saveable hinit) fresh).run
    (rfl : before w.saveBytes fresh = _)
  have htexts : w.addresses.map WalletAddress.reloaded = w.addresses :=
    (List.map_congr_left h.texts).trans (List.map_id' _)
  unfold RoundTrips
  cases hrun : loadFromFile (before w.saveBytes fresh) with
  | error what s =>
    rw [hrun] at hload
    constructor
    · rintro ⟨_, hok, _⟩
      cases hok
    · intro hlabels
      exact absurd ⟨h.entropy hinit, h.addresses_le, hlabels, h.pointer_le⟩ hload.1
  | ok _ s =>
    rw [hrun] at hload
    obtain ⟨hreadable, hreloaded⟩ := hload
    refine ⟨fun _ => hreadable.labels_le, fun _ => ⟨s, rfl, ?_⟩⟩
    exact
      { masterPubkey := hreloaded.masterPubkey
        salt := hreloaded.salt
        iv := hreloaded.iv
        tag := hreloaded.tag
        encryptedEntropy := hreloaded.encryptedEntropy
        addresses := hreloaded.addresses.trans htexts
        nextKeyIndex := hreloaded.nextKeyIndex
        nextChangeIndex := hreloaded.nextChangeIndex
        noiseNextLeaf := hreloaded.noiseNextLeaf
        used := UsedMap.isUsed_congr hreloaded.noiseUsed }

/-- **The round trip.**  In every session, with every cryptography, the file of a wallet whose
`SaveToFile` returned true restores the wallet exactly if no label is longer than 256 bytes. -/
theorem roundTrips_iff [WalletCrypto] (calls : List (Call × Bool)) :
    ∀ w ∈ (Session.run calls).saved,
      (RoundTrips w ↔ ∀ addr ∈ w.addresses, addr.label.length ≤ 256) := by
  intro w hw
  obtain ⟨hordinary, hinit⟩ := (ordinary_run calls).2 w hw
  exact hordinary.roundTrips hinit

/-! ## 5. A label of 257 bytes -/

section LongLabel

/-- A cryptography in which nothing is secret. -/
@[reducible]
def openCrypto : WalletCrypto where
  decrypt _ _ _ _ cipher := some (cipher.take 32)
  entropyToSeed entropy := some ⟨(entropy ++ List.replicate 64 0).take 64, by simp⟩
  masterPubkey seed := FixedBytes.take 32 seed.data (by rw [seed.size_eq]; decide)
  deriveKeyAtIndex _ _ _ := FixedBytes.zero
  getPublicKey _ := FixedBytes.zero
  sign _ _ := FixedBytes.zero
  decryptNoise _ _ := some (List.replicate NOISE_FILE_BYTES 0)
  mnemonicFromData entropy := some entropy
  encrypt _ _ _ entropy :=
    some (FixedBytes.zero, entropy ++ List.replicate (16 - entropy.length % 16) 0)
  length_encrypt h := by
    cases h
    rw [List.length_append, List.length_replicate]
    omega

def zeroRandomness : Randomness := ⟨FixedBytes.zero, FixedBytes.zero, FixedBytes.zero⟩

/-- The wallet `createwallet` makes of zeros. -/
def created : WalletManager :=
  { fresh with
    locked := false
    initialized := true
    encryptedEntropy := List.replicate 48 0 }

theorem perform_create :
    @perform openCrypto fresh (.create false [] zeroRandomness) = (created, true) := rfl

/-- The same wallet, unlocked. -/
def unlocked : WalletManager := { created with unlockedSeed := some FixedBytes.zero }

theorem perform_unlock : @perform openCrypto created (.unlock []) = (unlocked, false) := rfl

theorem perform_loadNoiseFile {w : WalletManager} (hinit : w.initialized = true) :
    ∃ kps nf, @perform openCrypto w (.loadNoiseFile (some []) []) =
      ({ w with noiseKps := kps, noiseFile := some nf, noiseLoaded := true }, false) := by
  have hlen : (List.replicate NOISE_FILE_BYTES (0 : UInt8)).length = NOISE_FILE_BYTES :=
    List.length_replicate
  have hgenerate : ∃ nf, NoiseFile.generate (List.replicate NOISE_FILE_BYTES 0) NOISE_LEAF_COUNT =
      .ok nf := by
    unfold NoiseFile.generate
    rw [if_neg (by decide), hlen, if_neg (by decide)]
    exact ⟨_, rfl⟩
  obtain ⟨nf, hnf⟩ := hgenerate
  refine ⟨nf.getRoot, (nf.setNextLeaf w.noiseNextLeaf).setUsedMap w.noiseUsed, ?_⟩
  have hdecrypt : openCrypto.decryptNoise [] [] = some (List.replicate NOISE_FILE_BYTES 0) := rfl
  dsimp only [perform, loadNoiseFile]
  rw [if_pos hinit, hdecrypt]
  dsimp only
  rw [hlen, if_neg (fun hne => hne rfl), hnf]

theorem perform_getNewAddress {w : WalletManager} {seed : Bytes64} (hlocked : w.locked = false)
    (hseed : w.unlockedSeed = some seed) (hloaded : w.noiseLoaded = true)
    (hroom : w.addresses.length < MAX_ADDRESSES) :
    @perform openCrypto w (.getNewAddress (List.replicate 257 97)) =
      ({ w with
          nextKeyIndex := w.nextKeyIndex + 1
          addresses := w.addresses ++
            [@addressOf openCrypto w seed w.nextKeyIndex false (List.replicate 257 97)] }, true) := by
  have hbody : ¬ (List.replicate 257 (97 : UInt8)).length > RPC_MAX_BODY_SIZE := by
    rw [List.length_replicate]
    decide
  dsimp only [perform]
  rw [if_neg hbody, @getNewAddress_unlocked w openCrypto seed _ hlocked hseed hloaded hroom]

/-- An address with a label of 257 bytes. -/
def longLabelCalls : List (Call × Bool) :=
  [(.create false [] zeroRandomness, true), (.unlock [], true), (.loadNoiseFile (some []) [], true),
    (.getNewAddress (List.replicate 257 97), true)]

/-- **A label that locks the wallet out.**  The file is written, and cannot be loaded. -/
theorem long_label : ∃ w ∈ (@Session.run openCrypto longLabelCalls).saved, ¬ RoundTrips w := by
  have hrun : ∃ w addr, (@Session.run openCrypto longLabelCalls).saved = [w, created] ∧
      w.addresses = [addr] ∧ addr.label = List.replicate 257 97 := by
    obtain ⟨kps, nf, hnoise⟩ := @perform_loadNoiseFile unlocked rfl
    have haddress := @perform_getNewAddress
      { unlocked with noiseKps := kps, noiseFile := some nf, noiseLoaded := true }
      FixedBytes.zero rfl rfl rfl (by decide : 0 < MAX_ADDRESSES)
    unfold Session.run longLabelCalls
    rw [List.foldl_cons, @Session.step_eq openCrypto ⟨fresh, _⟩ _ _ _ perform_create,
      List.foldl_cons, @Session.step_eq openCrypto ⟨created, _⟩ _ _ _ perform_unlock,
      List.foldl_cons, @Session.step_eq openCrypto ⟨unlocked, _⟩ _ _ _ hnoise,
      List.foldl_cons, @Session.step_eq openCrypto ⟨_, _⟩ _ _ _ haddress, List.foldl_nil]
    exact ⟨_, _, rfl, rfl, rfl⟩
  obtain ⟨w, addr, hsaved, haddrs, hlabel⟩ := hrun
  have hw : w ∈ (@Session.run openCrypto longLabelCalls).saved := by rw [hsaved]; simp
  obtain ⟨hordinary, hinit⟩ := (@ordinary_run openCrypto longLabelCalls).2 w hw
  refine ⟨w, hw, ?_⟩
  rw [hordinary.roundTrips hinit, haddrs]
  intro hshort
  have hle := hshort addr (List.mem_singleton_self _)
  rw [hlabel, List.length_replicate] at hle
  omega

/-- **A new wallet comes back.** -/
theorem roundTrips_created : RoundTrips created :=
  (@roundTrips_iff openCrypto [(.create false [] zeroRandomness, true)] created
    (List.mem_singleton.mpr rfl)).mpr fun _ h => absurd h List.not_mem_nil

end LongLabel

end WalletManager

end Moneu
