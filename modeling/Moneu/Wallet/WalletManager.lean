/-
# The wallet

`node/wallet_manager.cpp`, as far as spending goes: the wallet file, creating and unlocking a
wallet, the noise file, addresses, `CreateTransaction` and `SignTransaction`.

Key derivation, signing and the encryption of the two files are parameters (`WalletCrypto`).  The
strings that key `mHeldOutpoints` encode an outpoint, so the map is keyed by outpoints.  The
transaction history is not saved and nothing below reads it; it is left out, and with it the
field of an address that is only shown (`balance`).

`SaveToFile` writes a temporary file and renames it, so the wallet file either becomes
`saveBytes` or stays as it is.  What the caller sees of it is a flag.
-/
import Moneu.Validation.TxValidation
import Moneu.Wallet.NoiseFile

namespace Moneu

open NetParams

/-- The cryptography a wallet uses besides hashing. -/
class WalletCrypto where
  /-- `SecureKeys::Derive`, `ComputeTag` and `DecryptCBC` of `DecryptEntropy`. -/
  decrypt : (passphrase salt iv tag cipher : List UInt8) → Option (List UInt8)
  /-- `EntropyToSeed`. -/
  entropyToSeed : (entropy : List UInt8) → Option Bytes64
  /-- `hdnode_from_seed(…).public_key`. -/
  masterPubkey : (seed : Bytes64) → Bytes32
  /-- `DeriveKeyAtIndex`. -/
  deriveKeyAtIndex : (seed : Bytes64) → (index : UInt32) → (isChange : Bool) → Bytes32
  /-- `SecretKey::GetPublicKey`. -/
  getPublicKey : (secret : Bytes32) → Bytes32
  /-- `SecretKey::Sign`. -/
  sign : (secret : Bytes32) → (msg : List UInt8) → Bytes64
  /-- `NoiseStore::DecryptFromFile`. -/
  decryptNoise : (passphrase file : List UInt8) → Option (List UInt8)
  /-- `mnemonic_from_data`. -/
  mnemonicFromData : (entropy : List UInt8) → Option (List UInt8)
  /-- `SecureKeys::Derive`, `EncryptCBC` and `ComputeTag` of `EncryptEntropy`: the tag and the
  cipher, none if the keys cannot be derived. -/
  encrypt : (passphrase salt iv entropy : List UInt8) → Option (FixedBytes 32 × List UInt8)
  /-- The cipher is padded to whole blocks, by one byte at least. -/
  length_encrypt : ∀ {passphrase salt iv entropy tag cipher},
    encrypt passphrase salt iv entropy = some (tag, cipher) →
      cipher.length = (entropy.length / 16 + 1) * 16

/-! ## 1. The data -/

structure WalletAddress where
  address : List UInt8
  pubkeyHash : Bytes32
  keyIndex : UInt32
  label : List UInt8
  isChange : Bool

/-- `WalletManager`.  The seed is 64 bytes or empty. -/
structure WalletManager where
  locked : Bool
  initialized : Bool
  encryptedEntropy : List UInt8
  salt : FixedBytes 32
  iv : FixedBytes 16
  tag : FixedBytes 32
  masterPubkey : Bytes32
  unlockedSeed : Option Bytes64
  addresses : List WalletAddress
  nextKeyIndex : UInt32
  nextChangeIndex : UInt32
  noiseLoaded : Bool
  noiseKps : Bytes32
  noiseFile : Option NoiseFile
  noiseNextLeaf : UInt32
  noiseUsed : List UInt8
  heldOutpoints : AList fun _ : OutPoint => Bytes32

namespace WalletManager

def WALLET_VERSION : UInt32 := 5
def WALLET_VERSION_OLD : UInt32 := 4
def MAX_ENTROPY_SIZE : Nat := 32
def ENC_BLOCK_SIZE : Nat := 16
def MAX_ENCRYPTED_ENTROPY_SIZE : Nat := MAX_ENTROPY_SIZE + ENC_BLOCK_SIZE
def MAX_ADDRESSES : Nat := 1000000
def PUBKEY_ADDRESS_PREFIX : UInt8 := 33
def NOISE_FILE_BYTES : Nat := NOISE_LEAF_COUNT.toNat * 32

/-- `(NetParams::NOISE_LEAF_COUNT_VALUE + 7) / 8`. -/
def mapBytes : Nat := (NOISE_LEAF_COUNT.toNat + 7) / 8

def fresh : WalletManager where
  locked := true
  initialized := false
  encryptedEntropy := []
  salt := FixedBytes.zero
  iv := FixedBytes.zero
  tag := FixedBytes.zero
  masterPubkey := FixedBytes.zero
  unlockedSeed := none
  addresses := []
  nextKeyIndex := 0
  nextChangeIndex := 0
  noiseLoaded := false
  noiseKps := FixedBytes.zero
  noiseFile := none
  noiseNextLeaf := 0
  noiseUsed := []
  heldOutpoints := ∅

def isNoiseLeafUsed (w : WalletManager) (index : UInt32) : Bool := UsedMap.isUsed w.noiseUsed index

def markNoiseLeafUsed (w : WalletManager) (index : UInt32) : WalletManager :=
  let used := UsedMap.grow w.noiseUsed mapBytes
  { w with noiseUsed := if index.toNat / 8 < used.length then UsedMap.setBit used index else used }

def b58digits : List Char := "123456789ABCDEFGHJKLMNPQRSTUVWXYZabcdefghijkmnopqrstuvwxyz".toList

/-- The digits of a carry, the lowest first; it is below 256. -/
def b58carry : Nat → Nat → List Nat
  | 0, _ => []
  | fuel + 1, carry => if carry = 0 then [] else carry % 58 :: b58carry fuel (carry / 58)

/-- The inner loop of `b58enc`: the digits, the lowest first, times 256 and plus a carry. -/
def b58mulAdd : Nat → List Nat → List Nat
  | carry, [] => b58carry 2 carry
  | carry, digit :: rest => (carry + 256 * digit) % 58 :: b58mulAdd ((carry + 256 * digit) / 58) rest

def b58enc (bin : List UInt8) : List UInt8 :=
  let zcount := (bin.takeWhile (· = 0)).length
  let buf := (bin.drop zcount).foldl (fun buf byte => b58mulAdd byte.toNat buf) []
  List.replicate zcount 49 ++ buf.reverse.map fun digit => UInt8.ofNat (b58digits.getD digit '1').toNat

def buildAddress (pubkeyHash : Bytes32) : List UInt8 :=
  let payload := PUBKEY_ADDRESS_PREFIX :: pubkeyHash.data
  b58enc (payload ++ (sha256 (sha256 payload).data).data.take 4)

/-! ## 2. The wallet file -/

def addressBytes (addr : WalletAddress) : List UInt8 :=
  addr.pubkeyHash.data ++ (writeLE32 addr.keyIndex ++ ([if addr.isChange then 1 else 0] ++
    (writeLE32 (UInt32.ofNat addr.label.length) ++ addr.label)))

/-- The used map without the zeros at its end. -/
def trimmedMap (w : WalletManager) : List UInt8 := w.noiseUsed.rdropWhile (· == 0)

/-- The buffer `SaveToFile` writes; the machine is little-endian. -/
def saveBytes (w : WalletManager) : List UInt8 :=
  writeLE32 WALLET_VERSION ++ (w.masterPubkey.data ++ (w.salt.data ++ (w.iv.data ++ (w.tag.data ++
    (writeLE32 (UInt32.ofNat w.encryptedEntropy.length) ++ (w.encryptedEntropy ++
      (writeLE32 (UInt32.ofNat w.addresses.length) ++ (w.addresses.flatMap addressBytes ++
        (writeLE32 w.nextKeyIndex ++ (writeLE32 w.nextChangeIndex ++ (writeLE32 w.noiseNextLeaf ++
          (writeLE32 (UInt32.ofNat w.trimmedMap.length) ++ (w.trimmedMap ++ writeLE32 0)))))))))))))

/-- The stream `LoadFromFile` reads and the wallet it reads into.  A read fails at the end of the
file only, so `good()` and `eof()` exclude each other. -/
structure LoadState where
  rest : List UInt8
  good : Bool
  wallet : WalletManager

/-- A step of `LoadFromFile`; members that are set before an exception stay set. -/
abbrev Loader := EStateM String LoadState

namespace Loader

/-- `file.read(buf, n)` into a buffer of `n` bytes with the content `old`: what it holds then. -/
def read (old : List UInt8) : Loader (List UInt8) := fun s =>
  if s.good then
    .ok (s.rest.take old.length ++ old.drop s.rest.length)
      { s with rest := s.rest.drop old.length, good := old.length ≤ s.rest.length }
  else .ok old s

theorem length_overwrite (rest old : List UInt8) :
    (rest.take old.length ++ old.drop rest.length).length = old.length := by
  rw [List.length_append, List.length_take, List.length_drop]
  omega

/-- The same into an array. -/
def readArray {n : Nat} (old : FixedBytes n) : Loader (FixedBytes n) := fun s =>
  if s.good then
    .ok ⟨s.rest.take old.data.length ++ old.data.drop s.rest.length,
        by rw [length_overwrite, old.size_eq]⟩
      { s with rest := s.rest.drop old.data.length, good := old.data.length ≤ s.rest.length }
  else .ok old s

/-- The same into a `uint32_t`. -/
def readU32 (old : UInt32) : Loader UInt32 := do
  let bytes ← read (writeLE32 old)
  return readLE32 bytes

/-- `if (c) throw WalletError(…)`. -/
def throwIf (c : Prop) [Decidable c] (what : String) : Loader Unit :=
  if c then throw what else pure ()

/-- `file.good()`. -/
def good : Loader Bool := return (← get).good

/-- `file.seekg(n, std::ios::cur)`. -/
def skip (n : Nat) : Loader Unit := modify fun s => { s with rest := s.rest.drop n }

def wallet : Loader WalletManager := return (← get).wallet

def modifyWallet (f : WalletManager → WalletManager) : Loader Unit :=
  modify fun s => { s with wallet := f s.wallet }

end Loader

open Loader

/-- The body of the address loop. -/
def readAddress : Loader WalletAddress := do
  let pubkeyHash ← readArray FixedBytes.zero
  let keyIndex ← readU32 0
  let isChange ← read [0]
  let labelLen ← readU32 0
  throwIf (labelLen > 256) "Invalid wallet file - label too long"
  let label ← read (List.replicate labelLen.toNat 0)
  return { pubkeyHash, keyIndex, label, isChange := isChange = [1]
           address := buildAddress pubkeyHash }

def readAddresses : Nat → Loader Unit
  | 0 => pure ()
  | n + 1 => do
    let addr ← readAddress
    modifyWallet fun w => { w with addresses := w.addresses ++ [addr] }
    readAddresses n

/-- Every leaf below a pointer is marked. -/
def markBelow (map : List UInt8) (n : Nat) : List UInt8 :=
  (List.range n).foldl (fun map i => UsedMap.setBit map (UInt32.ofNat i)) map

/-- The map of used leaves: a version 5 file holds it, a version 4 file a pointer. -/
def readUsedMap (version : UInt32) : Loader Unit := do
  modifyWallet fun w => { w with noiseUsed := List.replicate mapBytes 0 }
  if version ≥ WALLET_VERSION then
    let usedLen ← readU32 0
    throwIf (usedLen.toNat > mapBytes) "Invalid wallet file - leaf map larger than the pool"
    let map ← read (List.replicate usedLen.toNat 0)
    modifyWallet fun w => { w with noiseUsed := map ++ w.noiseUsed.drop map.length }
  else
    modifyWallet fun w => { w with noiseUsed := markBelow w.noiseUsed w.noiseNextLeaf.toNat }

/-- The inner loop over the records of older versions. -/
def skipBlobs : Nat → Loader Unit
  | 0 => pure ()
  | k + 1 => do
    let blobLen ← readU32 0
    if ← good then
      skip blobLen.toNat
      skipBlobs k

/-- The outer loop over the records of older versions. -/
def skipRecords : Nat → Loader Unit
  | 0 => pure ()
  | n + 1 => do
    let _key ← read (List.replicate 32 0)
    let proofCount ← readU32 0
    if ← good then
      throwIf (proofCount > NOISE_LEAF_COUNT) "Invalid wallet file - stored proof count implausible"
      skipBlobs proofCount.toNat
      skipRecords n

/-- The part of `LoadFromFile` before the address records. -/
def readHeader (version : UInt32) : Loader Unit := do
  throwIf (version ≠ WALLET_VERSION ∧ version ≠ WALLET_VERSION_OLD)
    ("Unsupported wallet version: " ++ toString version)
  let masterPubkey ← readArray (← wallet).masterPubkey
  modifyWallet fun w => { w with masterPubkey }
  let salt ← readArray (← wallet).salt
  modifyWallet fun w => { w with salt }
  let iv ← readArray (← wallet).iv
  modifyWallet fun w => { w with iv }
  let tag ← readArray (← wallet).tag
  modifyWallet fun w => { w with tag }
  let entropySize ← readU32 0
  throwIf (entropySize = 0 ∨ entropySize.toNat > MAX_ENCRYPTED_ENTROPY_SIZE ∨
      entropySize.toNat % ENC_BLOCK_SIZE ≠ 0) "Invalid wallet file - bad encrypted entropy size"
  let encryptedEntropy ← read
    ((UsedMap.grow (← wallet).encryptedEntropy entropySize.toNat).take entropySize.toNat)
  modifyWallet fun w => { w with encryptedEntropy }

/-- `LoadFromFile`, once the file is open. -/
def loadFromFile : Loader Unit := do
  let version ← readU32 0
  readHeader version
  let addrCount ← readU32 0
  throwIf (addrCount.toNat > MAX_ADDRESSES) "Invalid wallet file - too many addresses"
  modifyWallet fun w => { w with addresses := [] }
  readAddresses addrCount.toNat
  let nextKeyIndex ← readU32 (← wallet).nextKeyIndex
  modifyWallet fun w => { w with nextKeyIndex }
  let nextChangeIndex ← readU32 (← wallet).nextChangeIndex
  modifyWallet fun w => { w with nextChangeIndex }
  let noiseNextLeaf ← readU32 (← wallet).noiseNextLeaf
  modifyWallet fun w => { w with noiseNextLeaf }
  throwIf (noiseNextLeaf > NOISE_LEAF_COUNT) "Invalid wallet file - noise leaf pointer out of range"
  readUsedMap version
  let preparedCount ← readU32 0
  if (← good) ∧ preparedCount > 0 then
    throwIf (preparedCount.toNat > MAX_ADDRESSES)
      "Invalid wallet file - stored record count implausible"
    skipRecords preparedCount.toNat

/-! ## 3. Creating, loading and unlocking -/

section Unlocking

variable [WalletCrypto]

/-- What `random_buffer` fills in `Create`. -/
structure Randomness where
  entropy : FixedBytes 32
  salt : FixedBytes 32
  iv : FixedBytes 16

/-- `Create` up to its end or to `SaveToFile`: the wallet then, and the mnemonic if it gets there.
`hasNoise` says whether there is a noise file. -/
def createStage (w : WalletManager) (hasNoise : Bool) (passphrase : List UInt8) (r : Randomness) :
    WalletManager × Except String (List UInt8) :=
  if w.initialized then (w, .error "Wallet already exists!")
  else if hasNoise then
    (w, .error ("A noise file already exists in this data directory and it " ++
      "belongs to a previous wallet. A new wallet must have its own " ++
      "noise file, or its addresses would share the old wallet's " ++
      "single-use leaves and both wallets would stop being able to " ++
      "spend at the same moment. Start the new wallet in a separate " ++
      "data directory with -datadir, or remove the old wallet and " ++
      "its noise file if the old wallet is finished with."))
  else
    match WalletCrypto.mnemonicFromData r.entropy.data with
    | none => (w, .error "Failed to generate mnemonic")
    | some mnemonic =>
      match WalletCrypto.entropyToSeed r.entropy.data with
      | none => (w, .error "Failed to derive seed from entropy")
      | some seed =>
        let w := { w with
          masterPubkey := WalletCrypto.masterPubkey seed, salt := r.salt, iv := r.iv }
        match WalletCrypto.encrypt passphrase r.salt.data r.iv.data r.entropy.data with
        | none => (w, .error "Could not derive wallet encryption key")
        | some (tag, cipher) =>
          ({ w with tag, encryptedEntropy := cipher, locked := false, initialized := true },
            .ok mnemonic)

/-- `Create`; `saves` says whether the wallet file can be written. -/
def create (w : WalletManager) (hasNoise : Bool) (passphrase : List UInt8) (r : Randomness)
    (saves : Bool) : WalletManager × Outcome (List UInt8) :=
  match w.createStage hasNoise passphrase r with
  | (w, .error what) => (w, .threw what)
  | (w, .ok mnemonic) =>
    (w, if saves then .ret mnemonic else .threw "Failed to save wallet to disk")

/-- `DecryptEntropy`; salt, IV and tag always have their size. -/
def decryptEntropy (w : WalletManager) (passphrase : List UInt8) : Option (List UInt8) :=
  if w.encryptedEntropy.isEmpty then none
  else WalletCrypto.decrypt passphrase w.salt.data w.iv.data w.tag.data w.encryptedEntropy

/-- The common part of `Load` and `Unlock`: the seed, if the passphrase and the file are right. -/
def openSeed (w : WalletManager) (passphrase : List UInt8) : Outcome (Option Bytes64) :=
  match w.decryptEntropy passphrase with
  | none => .threw "Wrong password\nACCESS DENIED"
  | some entropy =>
    match WalletCrypto.entropyToSeed entropy with
    | none => .ret none
    | some seed => .ret (if WalletCrypto.masterPubkey seed ≠ w.masterPubkey then none else some seed)

/-- `Load`; `file` is the content of the wallet file, or none if it cannot be opened. -/
def load (w : WalletManager) (file : Option (List UInt8)) (passphrase : List UInt8) :
    WalletManager × Outcome Bool :=
  match file with
  | none => (w, .ret false)
  | some bytes =>
    match loadFromFile { rest := bytes, good := true, wallet := w } with
    | .error what s => (s.wallet, .threw what)
    | .ok _ s =>
      match s.wallet.openSeed passphrase with
      | .threw what => (s.wallet, .threw what)
      | .ret none => (s.wallet, .ret false)
      | .ret (some _) => ({ s.wallet with locked := false, initialized := true }, .ret true)

def lock (w : WalletManager) : WalletManager := { w with unlockedSeed := none, locked := true }

def unlock (w : WalletManager) (passphrase : List UInt8) : WalletManager × Outcome Bool :=
  if !w.initialized then (w, .threw "Wallet not initialized")
  else
    match w.openSeed passphrase with
    | .threw what => (w, .threw what)
    | .ret none => (w, .ret false)
    | .ret (some seed) => ({ w with unlockedSeed := some seed, locked := false }, .ret true)

/-- `LoadNoiseFile`; `file` is the content of `noise.dat`, or none if there is no such file. -/
def loadNoiseFile (w : WalletManager) (file : Option (List UInt8)) (passphrase : List UInt8) :
    WalletManager × Outcome Bool :=
  match file with
  | none => (w, .ret false)
  | some bytes =>
    match WalletCrypto.decryptNoise passphrase bytes with
    | none => (w, .threw "Wrong password\nACCESS DENIED")
    | some raw =>
      if raw.length ≠ NOISE_FILE_BYTES then (w, .ret false)
      else
        match NoiseFile.generate raw NOISE_LEAF_COUNT with
        | .error _ => (w, .ret false)
        | .ok nf =>
          ({ w with
              noiseKps := nf.getRoot
              noiseFile := some ((nf.setNextLeaf w.noiseNextLeaf).setUsedMap w.noiseUsed)
              noiseLoaded := true }, .ret true)

end Unlocking

/-! ## 4. Addresses -/

def b58digit (c : UInt8) : Option Nat := b58digits.findIdx? fun d => d.toNat == c.toNat

/-- The digit loop of `b58tobin` with the number read so far. -/
def b58value (bound : Nat) : Nat → List UInt8 → Option Nat
  | value, [] => some value
  | value, c :: rest =>
    match b58digit c with
    | none => none
    | some d => if value * 58 + d ≥ bound then none else b58value bound (value * 58 + d) rest

/-- `b58tobin` with a buffer of `binsz` bytes: its content and the new `*binszp`. -/
def b58tobin (binsz : Nat) (b58 : List UInt8) : Option (List UInt8 × Nat) :=
  let b58 := b58.takeWhile (· ≠ 0)
  let zerocount := (b58.takeWhile (· = 49)).length
  match b58value (256 ^ binsz) 0 (b58.drop zerocount) with
  | none => none
  | some value =>
    let bin := FixedBytes.beDigits binsz value
    let i := (bin.takeWhile (· = 0)).length
    if zerocount > i then none else some (bin, binsz - i + zerocount)

/-- The public key hash `CreateTransaction` reads off an address. -/
def decodeAddress (toAddress : List UInt8) : Except String Bytes32 :=
  match b58tobin 37 toAddress with
  | none => .error "Invalid destination address"
  | some (decoded, decodedLen) =>
    if decodedLen ≠ 37 then .error "Invalid destination address"
    else if decoded.drop 33 ≠ (sha256 (sha256 (decoded.take 33)).data).data.take 4 then
      .error "Invalid address checksum"
    else if h : 32 ≤ (decoded.drop 1).length then .ok (FixedBytes.take 32 (decoded.drop 1) h)
    else .error "Invalid destination address"

/-! ## 5. Coin selection -/

def isSpendableNow (coin : Coin) (chainHeight : UInt32) : Bool :=
  !coin.isCoinbase || chainHeight ≥ coin.height + COINBASE_MATURITY

/-- `UTXOSet::GetUTXOsForAddresses`.  The order of the two tables stands for the order in which the
hash table and the database are walked. -/
def getUTXOsForAddresses (u : UTXOSet) (pubkeyHashes : List Bytes32) : List (OutPoint × Coin) :=
  if pubkeyHashes.isEmpty then []
  else
    (u.cache.entries.filterMap fun slot =>
      if !slot.2.coin.isSpent && slot.2.coin.pubkeyHash ∈ pubkeyHashes then
        some (slot.1, slot.2.coin)
      else none) ++
    u.db.coins.entries.filterMap fun slot =>
      if !slot.2.isSpent && slot.2.pubkeyHash ∈ pubkeyHashes && slot.1 ∉ u.cache then
        some (slot.1, slot.2)
      else none

def mine (w : WalletManager) : List Bytes32 := w.addresses.map WalletAddress.pubkeyHash

def spentInPool (poolTxs : List Transaction) : List OutPoint :=
  poolTxs.flatMap fun p => p.inputs.map TxInput.outpoint

/-- The coins that may be selected. -/
def spendable (w : WalletManager) (u : UTXOSet) (chainHeight : UInt32) (poolTxs : List Transaction) :
    List (OutPoint × Coin) :=
  (getUTXOsForAddresses u w.mine).filter fun utxo =>
    isSpendableNow utxo.2 chainHeight && utxo.1 ∉ w.heldOutpoints && utxo.1 ∉ spentInPool poolTxs

def immatureHeld (w : WalletManager) (u : UTXOSet) (chainHeight : UInt32) : Int64 :=
  (getUTXOsForAddresses u w.mine).foldl
    (fun total utxo => if isSpendableNow utxo.2 chainHeight then total else total + utxo.2.value) 0

/-- `pendingChange`: what the pool pays to the wallet and nothing has spent or claimed. -/
def pendingChange (w : WalletManager) (poolTxs : List Transaction) : Int64 :=
  (poolTxs.flatMap fun p => p.outputs.zipIdx.map fun out =>
      (out.1, ({ txHash := p.getHash, index := UInt32.ofNat out.2 } : OutPoint))).foldl
    (fun total out =>
      if out.1.value ≤ 0 ∨ out.1.getPubkeyHash ∉ w.mine ∨ out.2 ∈ spentInPool poolTxs ∨
          out.2 ∈ w.heldOutpoints then total
      else total + out.1.value) 0

/-- The selection loop: what is selected and what it is worth. -/
def selectCoins (needed : Int64) : Int64 → List (OutPoint × Coin) → List (OutPoint × Coin) × Int64
  | collected, [] => ([], collected)
  | collected, utxo :: rest =>
    if collected ≥ needed then ([], collected)
    else
      let (selected, total) := selectCoins needed (collected + utxo.2.value) rest
      (utxo :: selected, total)

/-- `%08lld`. -/
def pad8 (n : Int64) : String :=
  let digits := toString n
  String.ofList (List.replicate (8 - digits.length) '0') ++ digits

/-- The message for a selection that falls short. -/
def insufficientFunds (collected needed pendingChange immatureHeld : Int64) : String :=
  if pendingChange > 0 ∧ collected + pendingChange ≥ needed then
    "Insufficient confirmed funds. " ++ toString (pendingChange / COIN) ++ "." ++
      pad8 (pendingChange % COIN) ++ " MONEU is change from an earlier transfer that is not " ++
      "confirmed yet. It becomes spendable once that transfer " ++
      "is in a block, usually within 10 minutes"
  else if immatureHeld > 0 then
    "Insufficient funds. " ++ toString (immatureHeld / COIN) ++
      " MONEU is a mining reward that is not spendable yet - a reward needs " ++
      toString COINBASE_MATURITY ++ " blocks on top of the block that paid it"
  else "Insufficient funds"

/-! ## 6. `CreateTransaction` -/

section Create

variable [WalletCrypto]

/-- The address of a key. -/
def addressOf (w : WalletManager) (seed : Bytes64) (keyIndex : UInt32) (isChange : Bool)
    (label : List UInt8) : WalletAddress :=
  let sk := WalletCrypto.deriveKeyAtIndex seed keyIndex isChange
  let pubkeyHash := Transaction.noiseBoundHash (WalletCrypto.getPublicKey sk) w.noiseKps
  { address := buildAddress pubkeyHash, pubkeyHash, keyIndex, label, isChange }

/-- `GetNewAddress`; that the wallet file could not be written is not noticed. -/
def getNewAddress (w : WalletManager) (label : List UInt8) :
    Except String (WalletManager × WalletAddress) :=
  if w.addresses.length ≥ MAX_ADDRESSES then .error "Maximum number of addresses reached"
  else
    match w.locked, w.unlockedSeed with
    | false, some seed =>
      if !w.noiseLoaded then .error "Noise file must be loaded before creating an address"
      else
        let addr := w.addressOf seed w.nextKeyIndex false label
        .ok ({ w with
                nextKeyIndex := w.nextKeyIndex + 1
                addresses := w.addresses ++ [addr] }, addr)
    | _, _ => .error "Wallet must be unlocked to create an address"

/-- `GetChangeAddress`; that the wallet file could not be written is not noticed. -/
def getChangeAddress (w : WalletManager) : Except String (WalletManager × WalletAddress) :=
  if w.addresses.length ≥ MAX_ADDRESSES then .error "Maximum number of addresses reached"
  else
    match w.locked, w.unlockedSeed with
    | false, some seed =>
      if !w.noiseLoaded then
        .error "Noise file must be loaded before creating a change address"
      else
        let addr := w.addressOf seed w.nextChangeIndex true "change".toUTF8.toList
        .ok ({ w with
                nextChangeIndex := w.nextChangeIndex + 1
                addresses := w.addresses ++ [addr] }, addr)
    | _, _ => .error "Wallet must be unlocked to create a change address"

def inputFor (w : WalletManager) (seed : Bytes64) (utxo : OutPoint × Coin) : Except String TxInput :=
  match w.addresses.find? fun a => a.pubkeyHash = utxo.2.pubkeyHash with
  | none => .error "No wallet key found for a selected input"
  | some wa =>
    .ok
      { prevTxHash := utxo.1.txHash
        outputIndex := utxo.1.index
        pubkey := WalletCrypto.getPublicKey
          (WalletCrypto.deriveKeyAtIndex seed wa.keyIndex wa.isChange)
        signature := FixedBytes.zero
        kps := w.noiseKps
        noiseProof := [] }

/-- The checks before the coins are looked at; the seed and the destination. -/
def checkRequest (w : WalletManager) (toAddress : List UInt8) (amount fee : Int64)
    (message : List UInt8) : Except String (Bytes64 × Bytes32) :=
  if message.length > MAX_OP_RETURN_SIZE then
    .error ("Message is " ++ toString message.length ++ " bytes; the limit is " ++
      toString MAX_OP_RETURN_SIZE)
  else
    match w.locked, w.unlockedSeed with
    | false, some seed =>
      if !w.noiseLoaded then .error "Noise file must be loaded before spending"
      else if amount ≤ 0 then .error "Invalid amount"
      else if amount < DUST_THRESHOLD then
        .error ("Amount is below the dust threshold. The smallest amount " ++
          "you can send is 0.00001000.")
      else if fee < MIN_TX_FEE then .error "Fee too low"
      else (decodeAddress toAddress).map fun toPubkeyHash => (seed, toPubkeyHash)
    | _, _ => .error "Wallet is locked"

def CURRENT_VERSION : UInt32 := 1

/-- The outputs besides the change. -/
def payments (amount : Int64) (toPubkeyHash : Bytes32) (message : List UInt8) : List TxOutput :=
  TxOutput.ofPubkeyHash amount toPubkeyHash ::
    if message.isEmpty then [] else [{ value := 0, scriptPubKey := Script.createNullData message }]

/-- The change output, and the wallet with the address it goes to. -/
def changeOutputs (w : WalletManager) (change : Int64) :
    Except String (WalletManager × List TxOutput) :=
  if change > DUST_THRESHOLD then
    w.getChangeAddress.map fun r => (r.1, [TxOutput.ofPubkeyHash change r.2.pubkeyHash])
  else .ok (w, [])

/-- `TransactionBuilder::Build`. -/
def buildTransaction (inputs : List TxInput) (outputs : List TxOutput) : Except String Transaction :=
  do
    let tx ← Transaction.build CURRENT_VERSION inputs outputs 0
    if ← tx.isValid then return tx else throw "Invalid transaction"

/-- `mHeldOutpoints[…] = builtId` for every selected coin. -/
def hold (w : WalletManager) (selected : List (OutPoint × Coin)) (builtId : Bytes32) :
    WalletManager :=
  { w with
    heldOutpoints := selected.foldl (fun held utxo => held.insert utxo.1 builtId) w.heldOutpoints }

/-- `CreateTransaction`.  A `NULL` pool or message is an empty one. -/
def createTransaction (w : WalletManager) (toAddress : List UInt8) (amount fee : Int64)
    (u : UTXOSet) (chainHeight : UInt32) (poolTxs : List Transaction) (message : List UInt8) :
    WalletManager × Outcome Transaction :=
  match w.checkRequest toAddress amount fee message with
  | .error what => (w, .threw what)
  | .ok (seed, toPubkeyHash) =>
    let needed := amount + fee
    let (selected, collected) := selectCoins needed 0 (w.spendable u chainHeight poolTxs)
    if collected < needed then
      (w, .threw (insufficientFunds collected needed (w.pendingChange poolTxs)
        (w.immatureHeld u chainHeight)))
    else
      match selected.mapM (w.inputFor seed) with
      | .error what => (w, .threw what)
      | .ok inputs =>
        if inputs.length > Transaction.MAX_INPUTS then (w, .threw "Too many inputs")
        else
          match w.changeOutputs (collected - needed) with
          | .error what => (w, .threw what)
          | .ok (w, change) =>
            match buildTransaction inputs (payments amount toPubkeyHash message ++ change) with
            | .error what => (w, .threw what)
            | .ok built => (w.hold selected built.getHash, .ret built)

def releaseOutpointsFor (w : WalletManager) (txid : Bytes32) : WalletManager :=
  { w with
    heldOutpoints := w.heldOutpoints.keys.foldl
      (fun held o => if held.lookup o = some txid then held.erase o else held) w.heldOutpoints }

end Create

/-! ## 7. `SignTransaction` -/

section Sign

variable [WalletCrypto]

def signInput (tx : Transaction) (i : Nat) (key : Bytes32) : Transaction :=
  { tx with
    inputs := tx.inputs.modify i fun input =>
      { input with
        signature := WalletCrypto.sign key (tx.getSignatureHash i).data
        pubkey := WalletCrypto.getPublicKey key }
    inputs_le := by
      rw [List.length_modify]
      exact tx.inputs_le }

/-- The signing loop from input `i` on, for `n` inputs. -/
def signInputs (w : WalletManager) (seed : Bytes64) : Nat → Nat → Transaction → Transaction × Bool
  | 0, _, tx => (tx, true)
  | n + 1, i, tx =>
    match tx.inputs[i]? with
    | none => (tx, true)
    | some input =>
      let wantHash := Transaction.noiseBoundHash input.pubkey w.noiseKps
      match w.addresses.find? fun addr => wantHash = addr.pubkeyHash with
      | none => (tx, false)
      | some addr =>
        signInputs w seed n (i + 1)
          (signInput tx i (WalletCrypto.deriveKeyAtIndex seed addr.keyIndex addr.isChange))

/-- The held outpoints move to the signed id. -/
def renameHeld (w : WalletManager) (unsignedId signedId : Bytes32) : WalletManager :=
  if signedId = unsignedId then w
  else
    { w with
      heldOutpoints := w.heldOutpoints.keys.foldl
        (fun held o => if held.lookup o = some unsignedId then held.insert o signedId else held)
        w.heldOutpoints }

/-- The loop over the leaves of one input: the proofs, and all leaves consumed so far. -/
def proveLeaves (w : WalletManager) (nf : NoiseFile) (txHash : Bytes32) :
    List UInt32 → List UInt32 → Except String (List NoiseProof × List UInt32)
  | [], consumed => .ok ([], consumed)
  | leaf :: rest, consumed =>
    if w.isNoiseLeafUsed leaf then
      .error ("This transaction calls for a leaf already spent. " ++
        "Change the amount or the fee by one unit and sign again.")
    else if leaf ∈ consumed then
      .error ("Two inputs call for the same leaf. Change the " ++
        "amount or the fee by one unit and sign again.")
    else do
      let proof ← nf.createProofAt leaf txHash
      let (proofs, consumed) ← proveLeaves w nf txHash rest (consumed ++ [leaf])
      return (proof :: proofs, consumed)

/-- The loop over the inputs from number `i` on: the inputs with their proofs, and the leaves. -/
def proveInputs (w : WalletManager) (nf : NoiseFile) (txHash : Bytes32) :
    Nat → List TxInput → List UInt32 → Except String (List TxInput × List UInt32)
  | _, [], consumed => .ok ([], consumed)
  | i, input :: rest, consumed =>
    let wanted := deriveLeafIndices txHash input.kps (UInt32.ofNat i) NOISE_PROOFS_PER_INPUT
      NOISE_LEAF_COUNT
    if ¬ wanted.Nodup then
      .error ("This transaction calls for the same leaf twice. " ++
        "Change the amount or the fee by one unit and sign again.")
    else do
      let (proofs, consumed) ← proveLeaves w nf txHash wanted consumed
      let (inputs, consumed) ← proveInputs w nf txHash (i + 1) rest consumed
      return ({ input with noiseProof := proofs.flatMap NoiseProof.serialize } :: inputs, consumed)

/-- Both maps are marked. -/
def consume (w : WalletManager) (nf : NoiseFile) (consumed : List UInt32) : WalletManager :=
  { consumed.foldl markNoiseLeafUsed w with
    noiseFile := some (consumed.foldl NoiseFile.markLeafUsed nf) }

/-- How far `SignTransaction` gets by itself: to an end, or to the point where it saves. -/
inductive SignStage where
  | ended (outcome : Outcome Bool)
  | saving

/-- `SignTransaction` up to its end or to `SaveToFile`: the wallet and the transaction then. -/
def signStage (w : WalletManager) (tx : Transaction) : WalletManager × Transaction × SignStage :=
  match w.locked, w.unlockedSeed with
  | false, some seed =>
    match w.noiseLoaded, w.noiseFile with
    | true, some nf =>
      match w.signInputs seed tx.inputs.length 0 tx with
      | (signed, false) => (w, signed, .ended (.ret false))
      | (signed, true) =>
        let w := w.renameHeld tx.getHash signed.getHash
        if signed.isCoinbase then (w, signed, .ended (.ret true))
        else if nf.getRemaining < signed.inputs.length then
          (w, signed, .ended (.threw ("Noise pool exhausted: not enough single-use leaves left " ++
            "to authorise every input. Create a new wallet with a fresh noise file.")))
        else
          match w.proveInputs nf signed.getHash 0 signed.inputs [] with
          | .error what => (w, signed, .ended (.threw what))
          | .ok (inputs, consumed) =>
            match Transaction.build signed.version inputs signed.outputs signed.locktime with
            | .error what => (w, signed, .ended (.threw what))
            | .ok proven => (w.consume nf consumed, proven, .saving)
    | _, _ => (w, tx, .ended (.threw "Noise file not loaded"))
  | _, _ => (w, tx, .ended (.threw "Wallet is locked"))

/-- `SignTransaction`; `saves` says whether the wallet file can be written. -/
def signTransaction (w : WalletManager) (tx : Transaction) (saves : Bool) :
    WalletManager × Transaction × Outcome Bool :=
  match w.signStage tx with
  | (w, tx, .ended outcome) => (w, tx, outcome)
  | (w, tx, .saving) =>
    (w, tx,
      if saves then .ret true
      else .threw ("The transaction was signed but the wallet file could not " ++
        "be written, so the single-use leaves it consumed are not " ++
        "recorded. The transaction has NOT been sent. Make the " ++
        "wallet directory writable and try again."))

end Sign

/-! ## 8. `SyncNoiseLeafPointer` -/

/-- The leaves below a pointer that the chain knows as spent, in the order of the loop. -/
def spentBelow (u : UTXOSet) (kps : Bytes32) (after : UInt32) : List UInt32 :=
  ((List.range after.toNat).map UInt32.ofNat).filter fun i => u.isNoiseLeafSpent ⟨kps, i⟩

/-- `SyncNoiseLeafPointer`; that the wallet file could not be written is not noticed. -/
def syncNoiseLeafPointer (w : WalletManager) (u : UTXOSet) : WalletManager × UInt32 :=
  match w.noiseLoaded, w.noiseFile with
  | true, some nf =>
    match u.getHighestSpentNoiseLeaf w.noiseKps with
    | none => (w, 0)
    | some highest =>
      let wanted := highest + 1
      let before := nf.nextLeaf
      let nf := nf.setNextLeaf wanted
      let after := nf.nextLeaf
      if after > before then
        (({ w with noiseNextLeaf := after }).consume nf (spentBelow u w.noiseKps after),
          after - before)
      else ({ w with noiseFile := some nf }, after - before)
  | _, _ => (w, 0)

end WalletManager

end Moneu
