/-
# The UTXO set

`storage/utxo_set.cpp`: unspent coins and spent noise leaves, each split between the database and
an in-memory cache that `FlushCache` writes out.

Two things are made explicit that the source leaves to the machine.

* A storage failure.  `WriteBatch` throws `DBError` when the database refuses the batch, which is
  then not written.  `flushCache` takes the number of the batch that fails, if one does.
* A kill.  Completed writes persist and batches are atomic, so what a killed process leaves behind
  is the content of the database after one of its writes.  `trail` lists these contents, the
  latest first; no function of the source reads it.

The unordered map `mCache` is an association list; its order stands for the iteration order of
the hash table, on which nothing below depends.
-/
import Mathlib.Data.List.AList
import Mathlib.Data.Finset.Basic
import Mathlib.Data.Finset.Max
import Mathlib.Data.Finset.Option
import Mathlib.Data.Finset.SDiff
import Moneu.Primitives.Transaction
import Moneu.Storage.DBWrapper
import Moneu.Wallet.NoiseOtp

namespace Moneu

/-- A C++ call: it returns a value or throws. -/
inductive Outcome (α : Type) where
  | ret (a : α)
  | threw (what : String)
  deriving DecidableEq

/-! ## 1. The data -/

structure OutPoint where
  txHash : Bytes32
  index : UInt32
  deriving DecidableEq

structure NoiseLeafKey where
  kps : Bytes32
  leafIndex : UInt32
  deriving DecidableEq

structure Coin where
  value : Int64
  pubkeyHash : Bytes32
  height : UInt32
  isCoinbase : Bool
  isSpent : Bool
  deriving DecidableEq

structure UTXOEntry where
  coin : Coin
  isDirty : Bool
  isNew : Bool
  deriving DecidableEq

/-- The coin records of the database. -/
abbrev CoinTable := AList fun _ : OutPoint => Coin

abbrev UTXOMap := AList fun _ : OutPoint => UTXOEntry

/-- The chainstate database: coin records, the noise leaf keys present, and the two records
`DB_UTXO_BEST` and `DB_UTXO_HEADS` (new tip, old tip). -/
structure CoinsDB where
  coins : CoinTable
  leaves : Finset NoiseLeafKey
  best : Option Bytes32
  heads : Option (Bytes32 × Bytes32)

/-- `DB_UTXO_BEST`, `DB_UTXO_HEADS` and `DB_NOISE_LEAF`: 'u', 'h' and 'N'. -/
def DB_UTXO_BEST : UInt8 := 0x75

@[inherit_doc DB_UTXO_BEST]
def DB_UTXO_HEADS : UInt8 := 0x68

@[inherit_doc DB_UTXO_BEST]
def DB_NOISE_LEAF : UInt8 := 0x4e

def makeNoiseLeafDBKey (kps : Bytes32) (leafIndex : UInt32) : List UInt8 :=
  DB_NOISE_LEAF :: (kps.data ++ writeLE32 leafIndex)

/-- The key of a coin: the object `OutPoint` byte by byte. -/
def OutPoint.dbKey (outpoint : OutPoint) : List UInt8 :=
  outpoint.txHash.data ++ writeLE32 outpoint.index

/-- `OBFUSCATE_KEY_KEY`, under which `DBWrapper` keeps a record of its own. -/
def OBFUSCATE_KEY_KEY : List UInt8 := 0 :: "obfuscate_key".toUTF8.toList

/-- The keys of the database, as their bytes stand in it. -/
def CoinsDB.keys (db : CoinsDB) : Finset (List UInt8) :=
  (db.coins.keys.map OutPoint.dbKey).toFinset ∪
    (db.leaves.image fun key =>
      DataStream.putString (makeNoiseLeafDBKey key.kps key.leafIndex)) ∪
    (db.best.toFinset.image fun _ => [DB_UTXO_BEST]) ∪
    (db.heads.toFinset.image fun _ => [DB_UTXO_HEADS]) ∪
    {DataStream.putString OBFUSCATE_KEY_KEY}

def CoinsDB.empty : CoinsDB := { coins := ∅, leaves := ∅, best := none, heads := none }

/-- `UTXOSet`, with the database it owns. -/
structure UTXOSet where
  db : CoinsDB
  cache : UTXOMap
  bestBlock : Bytes32
  spentLeafCache : Finset NoiseLeafKey
  spentLeafDirty : Finset NoiseLeafKey
  erasedLeafDirty : Finset NoiseLeafKey
  trail : List CoinsDB

def TxInput.outpoint (input : TxInput) : OutPoint :=
  { txHash := input.prevTxHash, index := input.outputIndex }

/-- `Coin(value, pubkeyHash, height, isCoinbase)`. -/
def Coin.unspent (value : Int64) (pubkeyHash : Bytes32) (height : UInt32) (isCoinbase : Bool) :
    Coin :=
  { value, pubkeyHash, height, isCoinbase, isSpent := false }

/-- `coin.isSpent = true`. -/
def Coin.spent (c : Coin) : Coin := { c with isSpent := true }

/-- `coin.isSpent = false`. -/
def Coin.restored (c : Coin) : Coin := { c with isSpent := false }

namespace UTXOSet

/-- The constructor: the best block is the stored record, or zeros. -/
def openDB (db : CoinsDB) : UTXOSet where
  db := db
  cache := ∅
  bestBlock := db.best.getD FixedBytes.zero
  spentLeafCache := ∅
  spentLeafDirty := ∅
  erasedLeafDirty := ∅
  trail := []

/-! ## 2. Queries -/

def getCoin (u : UTXOSet) (outpoint : OutPoint) : Option Coin :=
  match u.cache.lookup outpoint with
  | some entry => if entry.coin.isSpent then none else some entry.coin
  | none =>
    match u.db.coins.lookup outpoint with
    | none => none
    | some dbCoin => if dbCoin.isSpent then none else some dbCoin

def haveCoin (u : UTXOSet) (outpoint : OutPoint) : Bool :=
  match u.cache.lookup outpoint with
  | some entry => !entry.coin.isSpent
  | none =>
    match u.db.coins.lookup outpoint with
    | none => false
    | some dbCoin => !dbCoin.isSpent

def isNoiseLeafSpent (u : UTXOSet) (key : NoiseLeafKey) : Bool :=
  if key ∈ u.spentLeafCache then true
  else if key ∈ u.erasedLeafDirty then false
  else key ∈ u.db.leaves

/-- The scan of `GetHighestSpentNoiseLeaf` over the keys an iterator walks: the indices it passes to
`consider`, up to the first key that ends it. -/
def scanLeaves (kps : Bytes32) : List (List UInt8) → List UInt32
  | [] => []
  | slKey :: rest =>
    match DBIterator.getKeyString slKey with
    | none => []
    | some key =>
      if key.length ≠ 1 + 32 + 4 then []
      else if key.take (1 + 32) ≠ (makeNoiseLeafDBKey kps 0).take (1 + 32) then []
      else readLE32 (key.drop (1 + 32)) :: scanLeaves kps rest

/-- The indices `GetHighestSpentNoiseLeaf` considers and does not skip: those of cached keys, then
those the scan of the database comes across.  The largest is kept, whatever the order. -/
def consideredLeaves (u : UTXOSet) (kps : Bytes32) : Finset Nat :=
  let target := DataStream.putString (makeNoiseLeafDBKey kps 0)
  let cached := (u.spentLeafCache.filter fun key => key.kps = kps).image NoiseLeafKey.leafIndex
  let stored := (scanLeaves kps (DBIterator.seek u.db.keys target)).toFinset
  ((cached ∪ stored).filter fun idx => ⟨kps, idx⟩ ∉ u.erasedLeafDirty).image UInt32.toNat

def getHighestSpentNoiseLeaf (u : UTXOSet) (kps : Bytes32) : Option UInt32 :=
  if h : (u.consideredLeaves kps).Nonempty then
    some (UInt32.ofNat ((u.consideredLeaves kps).max' h))
  else none

def getBestBlock (u : UTXOSet) : Bytes32 := u.bestBlock

def getHeadBlocks (u : UTXOSet) : Option (Bytes32 × Bytes32) := u.db.heads

/-! ## 3. Single coins and leaves -/

def setEntry (u : UTXOSet) (outpoint : OutPoint) (entry : UTXOEntry) : UTXOSet :=
  { u with cache := u.cache.insert outpoint entry }

/-- `SpendCoin`, and `SpendCoinIfPresentLocked`, which does the same and returns nothing. -/
def spendCoin (u : UTXOSet) (outpoint : OutPoint) : UTXOSet × Bool :=
  match u.cache.lookup outpoint with
  | some entry =>
    if entry.coin.isSpent then (u, false)
    else (u.setEntry outpoint { entry with coin := entry.coin.spent, isDirty := true }, true)
  | none =>
    match u.db.coins.lookup outpoint with
    | none => (u, false)
    | some dbCoin =>
      if dbCoin.isSpent then (u, false)
      else (u.setEntry outpoint { coin := dbCoin.spent, isDirty := true, isNew := false }, true)

/-- `AddCoinOverwriteLocked`, and the last line of every other way to add a coin. -/
def addCoinOverwrite (u : UTXOSet) (outpoint : OutPoint) (coin : Coin) : UTXOSet :=
  u.setEntry outpoint { coin, isDirty := true, isNew := true }

/-- `AddCoin`: an unspent coin is not replaced. -/
def addCoin (u : UTXOSet) (outpoint : OutPoint) (coin : Coin) : UTXOSet × Bool :=
  match u.cache.lookup outpoint with
  | some entry =>
    if !entry.coin.isSpent then (u, false) else (u.addCoinOverwrite outpoint coin, true)
  | none =>
    match u.db.coins.lookup outpoint with
    | some dbCoin =>
      if !dbCoin.isSpent then (u, false) else (u.addCoinOverwrite outpoint coin, true)
    | none => (u.addCoinOverwrite outpoint coin, true)

def markNoiseLeafSpent (u : UTXOSet) (key : NoiseLeafKey) : UTXOSet :=
  { u with
    spentLeafCache := insert key u.spentLeafCache
    spentLeafDirty := insert key u.spentLeafDirty
    erasedLeafDirty := u.erasedLeafDirty.erase key }

def unmarkNoiseLeafSpent (u : UTXOSet) (key : NoiseLeafKey) : UTXOSet :=
  { u with
    spentLeafCache := u.spentLeafCache.erase key
    spentLeafDirty := u.spentLeafDirty.erase key
    erasedLeafDirty := insert key u.erasedLeafDirty }

def setBestBlock (u : UTXOSet) (blockHash : Bytes32) : UTXOSet := { u with bestBlock := blockHash }

/-! ## 4. Flushing -/

def MAX_BATCH_SIZE : Nat := 16 * 1024 * 1024

/-- `sizeof(Coin) + sizeof(OutPoint)`, with the padding of the structures. -/
def ENTRY_SIZE : Nat := 48 + 36

/-- What a thrown `DBError` says. -/
def dbError : String := "Fatal LevelDB error: "

/-- An entry of the cache with its key. -/
abbrev Slot := Sigma fun _ : OutPoint => UTXOEntry

/-- The coin operations of a batch, in the order they were added: a spent coin is erased, an
unspent one written. -/
def writeCoins (batch : List (OutPoint × Coin)) (coins : CoinTable) : CoinTable :=
  batch.foldl (fun t op => if op.2.isSpent then t.erase op.1 else t.insert op.1 op.2) coins

/-- The local state of `FlushCache`: the database and its trail, the operations collected since
the last `WriteBatch`, their size, and how many batches have been written. -/
structure Flushing where
  db : CoinsDB
  trail : List CoinsDB
  batch : List (OutPoint × Coin)
  batchSize : Nat
  batchNo : Nat

/-- `mDB->WriteBatch(batch); batch.Clear(); batchSize = 0;`. -/
def Flushing.writeBatch (f : Flushing) : Flushing :=
  let db := { f.db with coins := writeCoins f.batch f.db.coins }
  { db, trail := db :: f.trail, batch := [], batchSize := 0, batchNo := f.batchNo + 1 }

/-- Add a coin operation to the batch. -/
def Flushing.push (f : Flushing) (outpoint : OutPoint) (coin : Coin) : Flushing :=
  { f with batch := f.batch ++ [(outpoint, coin)], batchSize := f.batchSize + ENTRY_SIZE }

/-- The loop over `mCache`: the entries as the loop leaves them, the local state, and whether a
`WriteBatch` threw.  An entry is marked clean when it is ADDED to the batch, before the batch
is written. -/
def flushEntries (fail : Option Nat) : List Slot → Flushing → List Slot × Flushing × Bool
  | [], f => ([], f, false)
  | ⟨outpoint, entry⟩ :: rest, f =>
    if !entry.isDirty then
      let (rest', f', threw) := flushEntries fail rest f
      (⟨outpoint, entry⟩ :: rest', f', threw)
    else
      let clean : Slot := ⟨outpoint, { entry with isDirty := false }⟩
      let f := f.push outpoint entry.coin
      if f.batchSize ≥ MAX_BATCH_SIZE then
        if fail = some f.batchNo then (clean :: rest, f, true)
        else
          let (rest', f', threw) := flushEntries fail rest f.writeBatch
          (clean :: rest', f', threw)
      else
        let (rest', f', threw) := flushEntries fail rest f
        (clean :: rest', f', threw)

theorem keys_flushEntries (fail : Option Nat) : ∀ (slots : List Slot) (f : Flushing),
    (flushEntries fail slots f).1.keys = slots.keys
  | [], f => rfl
  | ⟨outpoint, entry⟩ :: rest, f => by
    have ih := keys_flushEntries fail rest
    unfold flushEntries
    split
    · simp [ih]
    · dsimp only
      split
      · split <;> simp [ih]
      · simp [ih]

/-- The old tip `FlushCache` records: the stored best block, else the old tip of the marker it
finds, else zeros. -/
def flushOldTip (db : CoinsDB) : Bytes32 :=
  match db.best with
  | some oldTip => oldTip
  | none =>
    match db.heads with
    | some (_, markedOld) => markedOld
    | none => FixedBytes.zero

/-- The first batch of `FlushCache`: the best block record gives way to the marker. -/
def marked (u : UTXOSet) (bestBlock : Bytes32) : CoinsDB :=
  { u.db with best := none, heads := some (bestBlock, flushOldTip u.db) }

/-- The loop of `FlushCache` after the marker: the cache, the local state, and whether it threw. -/
def flushLoop (u : UTXOSet) (bestBlock : Bytes32) (fail : Option Nat) :
    UTXOMap × Flushing × Bool :=
  let db := u.marked bestBlock
  let start : Flushing := { db, trail := db :: u.trail, batch := [], batchSize := 0, batchNo := 1 }
  let loop := flushEntries fail u.cache.entries start
  (⟨loop.1, by
      rw [List.NodupKeys, keys_flushEntries fail u.cache.entries start]
      exact u.cache.nodupKeys⟩, loop.2)

/-- The last batch of `FlushCache` (the coins still in hand, the leaves, the best block, no
marker), and what is done in memory after it: spent entries are dropped. -/
def flushLast (u : UTXOSet) (bestBlock : Bytes32) (cache : UTXOMap) (f : Flushing) : UTXOSet :=
  let last : CoinsDB :=
    { coins := writeCoins f.batch f.db.coins
      leaves := (f.db.leaves ∪ u.spentLeafDirty) \ u.erasedLeafDirty
      best := some bestBlock
      heads := none }
  let kept : UTXOMap :=
    ⟨cache.entries.filter fun slot => !slot.2.coin.isSpent,
      List.NodupKeys.sublist List.filter_sublist cache.nodupKeys⟩
  { u with
    db := last
    trail := last :: f.trail
    cache := kept
    bestBlock := bestBlock
    spentLeafDirty := ∅
    erasedLeafDirty := ∅ }

/-- `FlushCache(bestBlock)`, where the batch number `fail`, if given, is refused by the database.
Batch 0 is the marker, the last one clears it. -/
def flushCache (u : UTXOSet) (bestBlock : Bytes32) (fail : Option Nat) : UTXOSet × Outcome Bool :=
  if fail = some 0 then (u, .threw dbError)
  else
    match u.flushLoop bestBlock fail with
    | (cache, f, threw) =>
      if threw || fail = some f.batchNo then
        ({ u with db := f.db, trail := f.trail, cache }, .threw dbError)
      else (u.flushLast bestBlock cache f, .ret true)

def flush (u : UTXOSet) (fail : Option Nat) : UTXOSet × Outcome Bool :=
  u.flushCache u.bestBlock fail

/-! ## 5. Transactions -/

/-- The coin an input of `ApplyTransaction` names, or the line it logs before it refuses. -/
def findInput (u : UTXOSet) (outpoint : OutPoint) : Except String Coin :=
  match u.cache.lookup outpoint with
  | some entry =>
    if entry.coin.isSpent then .error "UTXOSet: double spend detected" else .ok entry.coin
  | none =>
    match u.db.coins.lookup outpoint with
    | none => .error "UTXOSet: input not found"
    | some dbCoin =>
      if dbCoin.isSpent then .error "UTXOSet: double spend detected in DB" else .ok dbCoin

/-- The proofs of one input, in order: each leaf must be unspent and not yet claimed by this
transaction.  `toMark` is the vector of the source; its elements are those of `seenLeaves`. -/
def collectLeaves (u : UTXOSet) (kps : Bytes32) :
    List NoiseProof → List NoiseLeafKey → Except String (List NoiseLeafKey)
  | [], toMark => .ok toMark
  | proof :: rest, toMark =>
    let key : NoiseLeafKey := { kps, leafIndex := proof.leafIndex }
    if u.isNoiseLeafSpent key then .error "UTXOSet: noise leaf already consumed"
    else if key ∈ toMark then .error "UTXOSet: duplicate noise leaf in transaction"
    else collectLeaves u kps rest (toMark ++ [key])

/-- The first loop of `ApplyTransaction`, which changes nothing: the coins to spend and the
leaves to mark. -/
def collectInputs (u : UTXOSet) :
    List TxInput → List NoiseLeafKey → Except String (List (OutPoint × Coin) × List NoiseLeafKey)
  | [], toMark => .ok ([], toMark)
  | input :: rest, toMark =>
    match u.findInput input.outpoint with
    | .error e => .error e
    | .ok coin =>
      if input.noiseProof.isEmpty then .error "UTXOSet: missing noise proof"
      else
        match u.collectLeaves input.kps (NoiseProof.readAll input.noiseProof).1 toMark with
        | .error e => .error e
        | .ok toMark =>
          if (NoiseProof.readAll input.noiseProof).2.isSome then
            .error "UTXOSet: malformed noise proof"
          else
            match collectInputs u rest toMark with
            | .error e => .error e
            | .ok (toSpend, toMark) => .ok ((input.outpoint, coin) :: toSpend, toMark)

/-- One turn of the second loop: the coin is spent in the cache. -/
def spendCollected (u : UTXOSet) (item : OutPoint × Coin) : UTXOSet :=
  match u.cache.lookup item.1 with
  | some entry => u.setEntry item.1 { entry with coin := entry.coin.spent, isDirty := true }
  | none => u.setEntry item.1 { coin := item.2.spent, isDirty := true, isNew := false }

/-- The coins a transaction's outputs become, from output number `i` on: unspendable, worthless
and nonstandard outputs are skipped. -/
def newCoins (txHash : Bytes32) (height : UInt32) (isCoinbase : Bool) :
    Nat → List TxOutput → List (OutPoint × Coin)
  | _, [] => []
  | i, output :: rest =>
    if output.isUnspendable then newCoins txHash height isCoinbase (i + 1) rest
    else if output.value ≤ 0 then newCoins txHash height isCoinbase (i + 1) rest
    else
      match Script.extractPubkeyHash output.scriptPubKey with
      | none => newCoins txHash height isCoinbase (i + 1) rest
      | some pubkeyHash =>
        ({ txHash, index := UInt32.ofNat i },
          Coin.unspent output.value pubkeyHash height isCoinbase) ::
          newCoins txHash height isCoinbase (i + 1) rest

/-- The last loop of `ApplyTransaction` and of `ApplyTransactionForReplay`. -/
def addCoins (u : UTXOSet) (coins : List (OutPoint × Coin)) : UTXOSet :=
  coins.foldl (fun u item => u.addCoinOverwrite item.1 item.2) u

/-- `MarkNoiseLeafSpentLocked` for every key of a list. -/
def markAll (u : UTXOSet) (keys : List NoiseLeafKey) : UTXOSet :=
  keys.foldl markNoiseLeafSpent u

/-- `UnmarkNoiseLeafSpentLocked` for every key of a list. -/
def unmarkAll (u : UTXOSet) (keys : List NoiseLeafKey) : UTXOSet :=
  keys.foldl unmarkNoiseLeafSpent u

/-- `ApplyTransaction`: the new set and the spent coins, or the logged refusal; a refusal comes
before the first change. -/
def applyTransaction (u : UTXOSet) (tx : Transaction) (height : UInt32) (isCoinbase : Bool) :
    Except String (UTXOSet × List Coin) :=
  let created := newCoins tx.getHash height isCoinbase 0 tx.outputs
  if isCoinbase then .ok (u.addCoins created, [])
  else
    match u.collectInputs tx.inputs [] with
    | .error e => .error e
    | .ok (toSpend, toMark) =>
      let u := toSpend.foldl spendCollected u
      .ok ((u.markAll toMark).addCoins created, toSpend.map Prod.snd)

/-- `mCache.erase(outpoint); mDB->Erase(outpoint);`. -/
def eraseCoin (u : UTXOSet) (outpoint : OutPoint) : UTXOSet :=
  let db := { u.db with coins := u.db.coins.erase outpoint }
  { u with cache := u.cache.erase outpoint, db, trail := db :: u.trail }

/-- The outpoints of all outputs, spendable or not. -/
def outpointsOf (tx : Transaction) : List OutPoint :=
  (List.range tx.outputs.length).map fun i => { txHash := tx.getHash, index := UInt32.ofNat i }

/-- The keys of the proofs of an input. -/
def leafKeys (kps : Bytes32) (proofs : List NoiseProof) : List NoiseLeafKey :=
  proofs.map fun proof => { kps, leafIndex := proof.leafIndex }

/-- The loop of `UndoTransaction` over the inputs and the coins they spent: the coin comes back
and its leaves are unmarked, up to the first proof that does not parse. -/
def restoreInputs : UTXOSet → List TxInput → List Coin → UTXOSet × Bool
  | u, input :: inputs, coin :: coins =>
    let u := u.setEntry input.outpoint { coin := coin.restored, isDirty := true, isNew := false }
    let proofs := NoiseProof.readAll input.noiseProof
    let u := u.unmarkAll (leafKeys input.kps proofs.1)
    if proofs.2.isSome then (u, false) else restoreInputs u inputs coins
  | u, _, _ => (u, true)

def undoTransaction (u : UTXOSet) (tx : Transaction) (spentCoins : List Coin) : UTXOSet × Bool :=
  let u := (outpointsOf tx).foldl eraseCoin u
  if !tx.isCoinbase then
    if spentCoins.length ≠ tx.inputs.length then (u, false)
    else u.restoreInputs tx.inputs spentCoins
  else (u, true)

/-- The proofs of one input of `ApplyTransactionForReplay`: a leaf seen before in the same
transaction ends the call, any other is marked whether or not it was spent already. -/
def markSeen : UTXOSet → List NoiseLeafKey → List NoiseLeafKey → UTXOSet × Option (List NoiseLeafKey)
  | u, [], seen => (u, some seen)
  | u, key :: rest, seen =>
    if key ∈ seen then (u, none)
    else markSeen (u.markNoiseLeafSpent key) rest (key :: seen)

/-- The loop of `ApplyTransactionForReplay` over the inputs. -/
def replayInputs : UTXOSet → List TxInput → List NoiseLeafKey → UTXOSet × Bool
  | u, [], _ => (u, true)
  | u, input :: rest, seen =>
    let u := (u.spendCoin input.outpoint).1
    if input.noiseProof.isEmpty then replayInputs u rest seen
    else
      let proofs := NoiseProof.readAll input.noiseProof
      match u.markSeen (leafKeys input.kps proofs.1) seen with
      | (u, none) => (u, false)
      | (u, some seen) => if proofs.2.isSome then (u, false) else replayInputs u rest seen

def applyTransactionForReplay (u : UTXOSet) (tx : Transaction) (height : UInt32)
    (isCoinbase : Bool) : UTXOSet × Bool :=
  let created := newCoins tx.getHash height isCoinbase 0 tx.outputs
  if isCoinbase then (u.addCoins created, true)
  else
    match u.replayInputs tx.inputs [] with
    | (u, false) => (u, false)
    | (u, true) => (u.addCoins created, true)

end UTXOSet

end Moneu
