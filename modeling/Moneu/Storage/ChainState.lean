/-
# The chain state

`storage/chain_state.cpp`: the active chain, its height table, the block store and the UTXO set,
and the way a block gets onto the chain and off it again.  Start-up and replay are in
`Moneu.Storage.Replay`.

Heights of the chain are natural numbers (the source counts them in a `uint32_t`); a header's
height stays a `uint32_t`, so no chain grows past `2 ^ 32` blocks.

`trail` collects what is on disk after every completed write, the latest first.  Storage failures
inside `ConnectBlockLocked` are an argument (`ConnectFault`).
-/
import Mathlib.Data.List.Sort
import Moneu.Storage.BlockData
import Moneu.Validation.BlockValidation

namespace Moneu

open NetParams

/-! ## 1. The data -/

structure ChainTip where
  blockHash : Bytes32
  height : Nat
  timestamp : UInt64
  bits : UInt32
  chainWork : Bytes32
  deriving DecidableEq

def ChainTip.null : ChainTip :=
  { blockHash := FixedBytes.zero, height := 0, timestamp := 0, bits := 0,
    chainWork := FixedBytes.zero }

/-- The chain database: the records `DB_CHAIN_BEST` and `DB_CHAIN_GENESIS`. -/
structure ChainDB where
  best : Option ChainTip
  genesis : Option Bytes32

/-- Everything the node keeps on disk. -/
structure Disk where
  chain : ChainDB
  blocks : BlockDB
  coins : CoinsDB

/-- The disk of a node that was never started. -/
def Disk.empty : Disk :=
  { chain := { best := none, genesis := none }, blocks := BlockDB.empty, coins := CoinsDB.empty }

structure ChainState where
  chainDB : ChainDB
  blockData : BlockData
  utxoSet : UTXOSet
  bestChain : ChainTip
  initialized : Bool
  chainByHeight : List Bytes32
  syncConnected : List Transaction
  syncDisconnected : List Transaction
  syncDisconnectedBytes : Nat
  invalidBlocks : Finset Bytes32
  trail : List Disk

/-- The storage operation of `ConnectBlockLocked` that fails: the block file write (after some
bytes of the record), the index batch, the tip record, or a batch of the UTXO flush. -/
inductive ConnectFault where
  | blockFile (written : Nat)
  | indexBatch
  | tipRecord
  | flush (batch : Nat)
  deriving DecidableEq

namespace ChainState

/-- What is on disk now. -/
def disk (s : ChainState) : Disk :=
  { chain := s.chainDB, blocks := s.blockData.db, coins := s.utxoSet.db }

/-- The UTXO set after some of its own operations; its writes join the trail. -/
def setUTXO (s : ChainState) (u : UTXOSet) : ChainState :=
  { s with
    utxoSet := { u with trail := [] }
    trail := (u.trail.map fun coins => { s.disk with coins }) ++ s.trail }

/-- The block store after some of its own operations; its writes join the trail. -/
def setBlockData (s : ChainState) (bd : BlockData) : ChainState :=
  { s with
    blockData := { bd with trail := [] }
    trail := (bd.trail.map fun blocks => { s.disk with blocks }) ++ s.trail }

/-- A write to the chain database. -/
def writeChain (s : ChainState) (chainDB : ChainDB) : ChainState :=
  { s with chainDB, trail := { s.disk with chain := chainDB } :: s.trail }

def openDisk (d : Disk) : ChainState where
  chainDB := d.chain
  blockData := BlockData.openDB d.blocks
  utxoSet := UTXOSet.openDB d.coins
  bestChain := ChainTip.null
  initialized := false
  chainByHeight := []
  syncConnected := []
  syncDisconnected := []
  syncDisconnectedBytes := 0
  invalidBlocks := ∅
  trail := [d]

/-! ## 2. Walking the block index -/

/-- `n` steps back along `hashPrev`. -/
def walkBack (bd : BlockData) : Nat → Bytes32 → Option Bytes32
  | 0, cursor => some cursor
  | n + 1, cursor =>
    match bd.readBlockIndex cursor with
    | none => none
    | some entry => walkBack bd n entry.hashPrev

def getBlockHashByHeight (s : ChainState) (height : Nat) : Option Bytes32 :=
  if !s.initialized then none
  else if height > s.bestChain.height then none
  else if height = s.bestChain.height then some s.bestChain.blockHash
  else if s.chainByHeight.length > height ∧ s.chainByHeight.length = s.bestChain.height + 1 then
    s.chainByHeight[height]?
  else walkBack s.blockData (s.bestChain.height - height) s.bestChain.blockHash

/-- The loop of `IsOnActiveChainLocked`; the block at height 0 is never looked at. -/
def onActiveFrom (bd : BlockData) (blockHash : Bytes32) : Nat → Bytes32 → Bool
  | 0, _ => false
  | height + 1, cursor =>
    if cursor = blockHash then true
    else
      match bd.readBlockIndex cursor with
      | none => false
      | some entry => onActiveFrom bd blockHash height entry.hashPrev

def isOnActiveChain (s : ChainState) (blockHash : Bytes32) : Bool :=
  onActiveFrom s.blockData blockHash s.bestChain.height s.bestChain.blockHash

def MEDIAN_TIME_SPAN : Nat := 11

/-- The times of a block and its ancestors, at most `n` of them. -/
def pastTimes (bd : BlockData) : Nat → Bytes32 → List UInt64
  | 0, _ => []
  | n + 1, cursor =>
    match bd.readBlockIndex cursor with
    | none => []
    | some entry =>
      entry.nTime :: if entry.hashPrev.isZero then [] else pastTimes bd n entry.hashPrev

/-- `times[times.size() / 2]` of the sorted times, or the genesis time when there is none. -/
def medianTime (times : List UInt64) : UInt64 :=
  ((times.insertionSort (· ≤ ·))[times.length / 2]?).getD GENESIS_TIMESTAMP

def getMedianTimePast (s : ChainState) (blockHash : Bytes32) : UInt64 :=
  medianTime (pastTimes s.blockData MEDIAN_TIME_SPAN blockHash)

/-- The ASERT branch of `GetExpectedBitsLocked`. -/
def asertBits (s : ChainState) (height : Nat) : UInt32 :=
  if s.bestChain.height + 1 ≠ height ∨ s.bestChain.height < ASERT_ANCHOR_HEIGHT then
    s.bestChain.bits
  else
    match s.getBlockHashByHeight ASERT_ANCHOR_HEIGHT,
        s.getBlockHashByHeight (ASERT_ANCHOR_HEIGHT - 1) with
    | some anchorHash, some anchorParentHash =>
      match s.blockData.readBlockIndex anchorHash,
          s.blockData.readBlockIndex anchorParentHash with
      | some anchor, some anchorParent =>
        calculateASERTBits anchor.nBits anchorParent.nTime s.bestChain.timestamp
          s.bestChain.height
      | _, _ => s.bestChain.bits
    | _, _ => s.bestChain.bits

def getExpectedBits (s : ChainState) (height : Nat) : UInt32 :=
  if s.bestChain.height = 0 ∨ s.bestChain.bits = 0 then POW_LIMIT_COMPACT
  else if isAsertHeight height then s.asertBits height
  else if !isRetargetHeight height then s.bestChain.bits
  else if s.bestChain.height + 1 < DIFFICULTY_ADJUSTMENT_INTERVAL then s.bestChain.bits
  else
    match s.getBlockHashByHeight (s.bestChain.height - (DIFFICULTY_ADJUSTMENT_INTERVAL - 1)) with
    | none => s.bestChain.bits
    | some firstHash =>
      match s.blockData.readBlockIndex firstHash with
      | none => s.bestChain.bits
      | some firstEntry =>
        calculateNextWorkRequired s.bestChain.bits s.bestChain.timestamp firstEntry.nTime

end ChainState

/-! ## 3. Applying and undoing a block -/

/-- How `ApplyBlockTwoPhase` ends when it does not return true. -/
inductive ApplyError where
  | refused (log : String)
  | threw (what : String)

/-- The leading coinbase, if the first transaction is one, and the other transactions. -/
def Block.splitCoinbase (block : Block) : Option Transaction × List Transaction :=
  match block.transactions with
  | [] => (none, [])
  | tx :: rest => if tx.isCoinbase then (some tx, rest) else (none, tx :: rest)

namespace UTXOSet

/-- The coins of the inputs, all of which must be there (`GetCoin`). -/
def fetchCoins (u : UTXOSet) : List TxInput → Option (List Coin)
  | [] => some []
  | input :: rest =>
    match u.getCoin input.outpoint with
    | none => none
    | some coin => (fetchCoins u rest).map (coin :: ·)

/-- The guarded `int64_t` sum of the input values of transaction `i`. -/
def sumCoins (i : Nat) : Int64 → List Coin → Except ApplyError Int64
  | valueIn, [] => .ok valueIn
  | valueIn, coin :: rest =>
    if coin.value < 0 ∨ !checkMoneyRange coin.value.toUInt64 then
      .error (.refused ("ChainState: tx " ++ toString i ++ " input value out of range"))
    else
      let next := valueIn + coin.value
      if next < valueIn ∨ !checkMoneyRange next.toUInt64 then
        .error (.refused ("ChainState: tx " ++ toString i ++ " total input value out of range"))
      else sumCoins i next rest

/-- One turn of the second phase of `ApplyBlockTwoPhase`. -/
def applyOne (u : UTXOSet) (height : UInt32) (i : Nat) (tx : Transaction) :
    Except ApplyError (UTXOSet × List Coin) :=
  match u.fetchCoins tx.inputs with
  | none => .error (.refused ("ChainState: tx " ++ toString i ++ " names an output that is gone"))
  | some coins =>
    match sumCoins i 0 coins with
    | .error e => .error e
    | .ok valueIn =>
      match tx.getValueOut with
      | .error what => .error (.threw what)
      | .ok valueOut =>
        if valueOut < 0 ∨ valueIn < valueOut then
          .error (.refused ("ChainState: tx " ++ toString i ++
            " spends more than it takes in"))
        else
          match u.applyTransaction tx height false with
          | .error _ =>
            .error (.refused ("ChainState: tx " ++ toString i ++ " could not be applied"))
          | .ok result => .ok result

/-- The lambda `rollback`: the applied transactions are undone, the last one first, and then the
coinbase.  What the undo calls return is not looked at. -/
def rollback (u : UTXOSet) (coinbase : Option Transaction)
    (appliedHere : List (Transaction × List Coin)) : UTXOSet :=
  let u := appliedHere.foldl (fun u item => (u.undoTransaction item.1 item.2).1) u
  match coinbase with
  | none => u
  | some tx => (u.undoTransaction tx []).1

/-- The second phase of `ApplyBlockTwoPhase` from transaction `i` on; `appliedHere` holds the
applied transactions with the coins they spent, the last one first.  An exception skips the
rollback. -/
def applyFrom (coinbase : Option Transaction) (height : UInt32) :
    Nat → List Transaction → List (Transaction × List Coin) → UTXOSet →
      UTXOSet × Except ApplyError BlockUndo
  | _, [], appliedHere, u => (u, .ok { txUndo := appliedHere.reverse.map fun item => ⟨item.2⟩ })
  | i, tx :: rest, appliedHere, u =>
    match u.applyOne height i tx with
    | .error (.refused log) => (u.rollback coinbase appliedHere, .error (.refused log))
    | .error (.threw what) => (u, .error (.threw what))
    | .ok (u, spentHere) => applyFrom coinbase height (i + 1) rest ((tx, spentHere) :: appliedHere) u

def applyBlockTwoPhase (u : UTXOSet) (block : Block) (height : UInt32) :
    UTXOSet × Except ApplyError BlockUndo :=
  match block.splitCoinbase with
  | (some coinbase, others) =>
    match u.applyTransaction coinbase height true with
    | .error _ => (u, .error (.refused "ChainState: coinbase failed to apply"))
    | .ok (u, _) => applyFrom (some coinbase) height 1 others [] u
  | (none, others) => applyFrom none height 0 others [] u

/-- The loop of `UndoBlockTwoPhase`, on the transactions in the order they are undone. -/
def undoTxs : UTXOSet → List (Transaction × TxUndo) → UTXOSet × Bool
  | u, [] => (u, true)
  | u, (tx, tu) :: rest =>
    match u.undoTransaction tx tu.spentCoins with
    | (u, false) => (u, false)
    | (u, true) => undoTxs u rest

def undoBlockTwoPhase (u : UTXOSet) (block : Block) (undo : BlockUndo) : UTXOSet × Bool :=
  let (coinbase, others) := block.splitCoinbase
  if undo.txUndo.length ≠ others.length then (u, false)
  else
    match u.undoTxs (others.zip undo.txUndo).reverse with
    | (u, false) => (u, false)
    | (u, true) =>
      match coinbase with
      | none => (u, true)
      | some tx => u.undoTransaction tx []

end UTXOSet

namespace ChainState

/-! ## 4. Connecting and disconnecting -/

def MAX_DISCONNECTED_TX_BYTES : Nat := 20000000

def queueConnected (s : ChainState) (block : Block) : ChainState :=
  { s with
    syncConnected := s.syncConnected ++ block.transactions.filter fun tx => !tx.isCoinbase }

/-- The eviction loop of `QueueDisconnectedLocked`. -/
def evict : List Transaction → Nat → List Transaction × Nat
  | [], bytes => ([], bytes)
  | tx :: rest, bytes =>
    if bytes > MAX_DISCONNECTED_TX_BYTES then evict rest (bytes - tx.getSerializedSize true)
    else (tx :: rest, bytes)

def queueDisconnected (s : ChainState) (block : Block) : ChainState :=
  let txs := block.transactions.reverse.filter fun tx => !tx.isCoinbase
  let bytes := s.syncDisconnectedBytes + (txs.map (Transaction.getSerializedSize true)).sum
  let (kept, bytes) := evict (s.syncDisconnected ++ txs) bytes
  { s with syncDisconnected := kept, syncDisconnectedBytes := bytes }

/-- The checks of `ConnectBlockLocked` before anything is changed: height, link to the tip,
median time past, difficulty and proof of work. -/
def headerExtendsTip (s : ChainState) (hdr : BlockHeader) : Bool :=
  let newHeight := s.bestChain.height + 1
  hdr.height.toNat = newHeight &&
    (if s.bestChain.height = 0 then hdr.prevBlockHash = getGenesisHash
     else hdr.prevBlockHash = s.bestChain.blockHash) &&
    (s.bestChain.height = 0 || hdr.timestamp > s.getMedianTimePast s.bestChain.blockHash) &&
    hdr.bits = s.getExpectedBits newHeight &&
    checkProofOfWork hdr.getHash hdr.bits

/-- The in-memory part of moving the tip to `block`. -/
def moveTip (s : ChainState) (block : Block) (newHeight : Nat) (chainWork : Bytes32) : ChainState :=
  { s with
    bestChain := { blockHash := block.getHash, height := newHeight,
                   timestamp := block.header.timestamp, bits := block.header.bits, chainWork }
    chainByHeight :=
      if s.chainByHeight.length = newHeight then s.chainByHeight ++ [block.getHash] else [] }

/-- `ConnectBlockLocked` after `WriteBlockConnected`: the tip, its record, the UTXO flush and
the queue. -/
def commitTip (s : ChainState) (block : Block) (chainWork : Bytes32) (fault : Option ConnectFault) :
    ChainState × Outcome Bool :=
  let newHeight := s.bestChain.height + 1
  let s := s.moveTip block newHeight chainWork
  if fault = some .tipRecord then (s, .threw UTXOSet.dbError)
  else
    let s := s.writeChain { s.chainDB with best := some s.bestChain }
    let fail := match fault with
      | some (.flush batch) => some batch
      | _ => none
    match (s.utxoSet.setBestBlock block.getHash).flush fail with
    | (u, .threw what) => (s.setUTXO u, .threw what)
    | (u, .ret _) =>
      let s := s.setUTXO u
      let s :=
        if newHeight = 1 then
          s.writeChain { s.chainDB with genesis := some block.header.prevBlockHash }
        else s
      (s.queueConnected block, .ret true)

/-- `ConnectBlockLocked` after `ApplyBlockTwoPhase`: `WriteBlockConnected` and the rest. -/
def recordConnected (s : ChainState) (block : Block) (undo : BlockUndo)
    (fault : Option ConnectFault) : ChainState × Outcome Bool :=
  let newHeight := s.bestChain.height + 1
  let chainWork := addChainWork s.bestChain.chainWork block.header.bits
  match fault with
  | some (.blockFile written) =>
    (s.setBlockData (s.blockData.writeBlockToDiskFailed block written),
      .threw "Failed to write block to disk")
  | some .indexBatch =>
    (s.setBlockData (s.blockData.writeBlockToDisk block).1, .threw UTXOSet.dbError)
  | _ =>
    (s.setBlockData (s.blockData.writeBlockConnected block newHeight chainWork undo)).commitTip
      block chainWork fault

def connectBlock (s : ChainState) (block : Block) (fault : Option ConnectFault) :
    ChainState × Outcome Bool :=
  if !s.headerExtendsTip block.header then (s, .ret false)
  else
    match s.utxoSet.applyBlockTwoPhase block (UInt32.ofNat (s.bestChain.height + 1)) with
    | (u, .error (.refused _)) => (s.setUTXO u, .ret false)
    | (u, .error (.threw what)) => (s.setUTXO u, .threw what)
    | (u, .ok undo) => (s.setUTXO u).recordConnected block undo fault

/-- The in-memory part of moving the tip back to the parent. -/
def moveBack (s : ChainState) (hashPrev : Bytes32) (parent : BlockIndexEntry) : ChainState :=
  { s with
    bestChain := { blockHash := hashPrev, height := parent.nHeight, timestamp := parent.nTime,
                   bits := parent.nBits, chainWork := parent.nChainWork }
    chainByHeight :=
      if s.chainByHeight.length = parent.nHeight + 2 then s.chainByHeight.dropLast else [] }

/-- `DisconnectTipLocked` after `UndoBlockTwoPhase`: the tip, its record, the UTXO flush and the
queue. -/
def commitBack (s : ChainState) (block : Block) (hashPrev : Bytes32) (parent : BlockIndexEntry) :
    ChainState :=
  let s := s.moveBack hashPrev parent
  let s := s.writeChain { s.chainDB with best := some s.bestChain }
  let s := s.setUTXO ((s.utxoSet.setBestBlock hashPrev).flush none).1
  s.queueDisconnected block

def disconnectTip (s : ChainState) : ChainState × Bool :=
  if s.bestChain.height = 0 then (s, false)
  else
    let blockHash := s.bestChain.blockHash
    match s.blockData.readBlockIndex blockHash with
    | none => (s, false)
    | some entry =>
      match s.blockData.readBlock entry.blockPos with
      | none => (s, false)
      | some block =>
        match s.blockData.readBlockUndo blockHash with
        | none => (s, false)
        | some undo =>
          match s.utxoSet.undoBlockTwoPhase block undo with
          | (u, false) => (s.setUTXO u, false)
          | (u, true) =>
            match s.blockData.readBlockIndex entry.hashPrev with
            | none => (s.setUTXO u, false)
            | some parent => ((s.setUTXO u).commitBack block entry.hashPrev parent, true)

/-! ## 5. Choosing the best chain -/

/-- Where a new branch leaves the active chain: at a block above genesis, or at genesis. -/
inductive Fork where
  | block (hash : Bytes32)
  | genesis
  deriving DecidableEq

/-- The result of the first loop of `ActivateBestChainLocked`. -/
inductive BranchSearch where
  | missing
  | found (newBranch : List Bytes32) (fork : Fork)
  | unbounded

/-- Prepend a block to the branch found from its parent on. -/
def BranchSearch.push (cursor : Bytes32) : BranchSearch → BranchSearch
  | .found newBranch fork => .found (cursor :: newBranch) fork
  | other => other

/-- The first loop of `ActivateBestChainLocked`, which has no bound of its own: the branch from
the new tip back to the fork, tip first.  `unbounded` stands for a loop that does not end within
`fuel` turns. -/
def findBranch (s : ChainState) : Nat → Bytes32 → BranchSearch
  | 0, _ => .unbounded
  | fuel + 1, cursor =>
    match s.blockData.readBlockIndex cursor with
    | none => .missing
    | some e =>
      if s.isOnActiveChain cursor then .found [] (.block cursor)
      else if e.hashPrev = getGenesisHash then .found [cursor] .genesis
      else (s.findBranch fuel e.hashPrev).push cursor

/-- The height an index entry gives, as a bound for walks along `hashPrev`. -/
def indexHeight (s : ChainState) (blockHash : Bytes32) : Nat :=
  match s.blockData.readBlockIndex blockHash with
  | none => 0
  | some e => e.nHeight

/-- Is the tip at the fork? -/
def atFork (s : ChainState) : Fork → Bool
  | .genesis => s.bestChain.height = 0
  | .block hash => s.bestChain.blockHash = hash

/-- The loop that takes blocks off the active chain.  The blocks taken off, the last one first,
and whether the fork was reached.  Every turn lowers the height or ends the loop. -/
def disconnectTo (fork : Fork) : Nat → ChainState → List Bytes32 → ChainState × List Bytes32 × Bool
  | 0, s, disconnected => (s, disconnected, s.atFork fork)
  | fuel + 1, s, disconnected =>
    if s.atFork fork then (s, disconnected, true)
    else if s.bestChain.height = 0 then (s, disconnected, false)
    else
      let leaving := s.bestChain.blockHash
      match s.disconnectTip with
      | (s, false) => (s, disconnected, false)
      | (s, true) => disconnectTo fork fuel s (leaving :: disconnected)

/-- `ReadBlockIndex` and `ReadBlock`. -/
def loadBlock (s : ChainState) (blockHash : Bytes32) : Option Block :=
  match s.blockData.readBlockIndex blockHash with
  | none => none
  | some e => s.blockData.readBlock e.blockPos

/-- The loop of the lambda `reconnectOld`: the blocks in chain order. -/
def reconnect (faults : Bytes32 → Option ConnectFault) : ChainState → List Bytes32 → ChainState × Bool
  | s, [] => (s, true)
  | s, hash :: rest =>
    match s.loadBlock hash with
    | none => (s, false)
    | some block =>
      match s.connectBlock block (faults hash) with
      | (s, .ret true) => reconnect faults s rest
      | (s, _) => (s, false)

/-- The lambda `restoreOld`: put the old chain back, and the mempool queues when that ended on
the tip the attempt started from. -/
def restoreOld (faults : Bytes32 → Option ConnectFault) (start : ChainState) (s : ChainState)
    (disconnected : List Bytes32) : ChainState :=
  match s.reconnect faults disconnected with
  | (s, true) =>
    if s.bestChain.blockHash = start.bestChain.blockHash then
      { s with
        syncConnected := start.syncConnected
        syncDisconnected := start.syncDisconnected
        syncDisconnectedBytes := start.syncDisconnectedBytes }
    else s
  | (s, false) => s

/-- `RollbackConnectedLocked` of `n` blocks; a tip that is not the expected one is only logged. -/
def rollbackConnected : Nat → ChainState → ChainState
  | 0, s => s
  | n + 1, s =>
    match s.disconnectTip with
    | (s, false) => s
    | (s, true) => rollbackConnected n s

/-- What one turn of the connect loop does to a branch block. -/
inductive BranchStep where
  | connected
  | refused (invalid : Bool)

/-- One turn of the loop over the new branch: read, validate against the UTXO set as the parent
left it, connect.  Only a verdict on the block marks it invalid, not a failure to read it and
not an exception. -/
def connectBranchBlock [Ed25519] (faults : Bytes32 → Option ConnectFault) (skipValidation : Bool)
    (s : ChainState) (hash : Bytes32) : ChainState × BranchStep :=
  match s.loadBlock hash with
  | none => (s, .refused false)
  | some block =>
    let verdict :=
      if skipValidation then .ok ()
      else BlockValidation.checkBlockTransactionsWithUTXO block s.utxoSet
        (UInt32.ofNat (s.bestChain.height + 1))
    match verdict with
    | .error (.invalid _ _) => (s, .refused true)
    | .error (.threw _) => (s, .refused false)
    | .ok () =>
      match s.connectBlock block (faults hash) with
      | (s, .ret true) => (s, .connected)
      | (s, .ret false) => (s, .refused true)
      | (s, .threw _) => (s, .refused false)

/-- The loop over the new branch in chain order, with the number of blocks connected; a refusal
of a bad block marks it and every later block of the branch. -/
def connectBranch [Ed25519] (faults : Bytes32 → Option ConnectFault) (skipValidation : Bool) :
    ChainState → List Bytes32 → Nat → ChainState × Nat × Bool
  | s, [], n => (s, n, true)
  | s, hash :: rest, n =>
    match s.connectBranchBlock faults skipValidation hash with
    | (s, .connected) => connectBranch faults skipValidation s rest (n + 1)
    | (s, .refused true) =>
      let invalidBlocks := (hash :: rest).foldl (fun bad h => insert h bad) s.invalidBlocks
      ({ s with invalidBlocks }, n, false)
    | (s, .refused false) => (s, n, false)

/-- `ActivateBestChainLocked`.  The search goes down one height a turn; only from genesis, whose parent
field is zero, could it go on elsewhere, to a block whose hash is zero. -/
def activateBestChain [Ed25519] (faults : Bytes32 → Option ConnectFault) (s : ChainState)
    (newTipHash : Bytes32) (tipValidated : Bool) : ChainState × Outcome Bool :=
  match s.findBranch (s.indexHeight newTipHash + s.indexHeight FixedBytes.zero + 2) newTipHash with
  | .missing => (s, .ret false)
  | .unbounded => (s, .threw "does not end")
  | .found newBranch fork =>
    match disconnectTo fork (s.bestChain.height + 1) s [] with
    | (s', disconnected, false) => (restoreOld faults s s' disconnected, .ret false)
    | (s', disconnected, true) =>
      let skipValidation := tipValidated && disconnected.isEmpty && newBranch.length = 1
      match connectBranch faults skipValidation s' newBranch.reverse 0 with
      | (s', _, true) => (s', .ret true)
      | (s', n, false) =>
        (restoreOld faults s (rollbackConnected n s') disconnected, .ret false)

/-! ## 6. Accepting a block -/

/-- `LastCheckpointHeight`: the newest checkpoint found in the block index. -/
def lastCheckpointHeight (bd : BlockData) : Option Nat :=
  MAINNET_CHECKPOINTS.reverse.findSome? fun checkpoint =>
    (bd.readBlockIndex checkpoint.2).map BlockIndexEntry.nHeight

/-- The check of the coinbase outputs in `AcceptBlock`. -/
def coinbaseOk (block : Block) : Bool :=
  match block.transactions with
  | [] => false
  | coinbase :: _ =>
    match coinbase.getValueOut with
    | .error _ => false
    | .ok cbOut => cbOut ≥ 0 && checkMoneyRange cbOut.toUInt64

/-- The entries of the transaction index that a side block must not take over. -/
def keepTxIndex (bd : BlockData) (block : Block) : List (Bytes32 × Bytes32) :=
  block.transactions.filterMap fun tx => (bd.readTxIndex tx.getHash).map fun h => (tx.getHash, h)

/-- `WriteBlock` in `AcceptBlock`: the entries of the transaction index that a side block took over
are written back. -/
def storeBlock (s : ChainState) (block : Block) (blockHeight : Nat) (blockWork : Bytes32)
    (extendsTip : Bool) : ChainState :=
  let kept := if extendsTip then [] else keepTxIndex s.blockData block
  let bd := s.blockData.writeBlock block blockHeight blockWork
  s.setBlockData (kept.foldl (fun bd item => bd.writeTxIndex item.1 item.2) bd)

/-- The end of `AcceptBlock`: store the block, and activate its branch if it has more work. -/
def storeAndActivate [Ed25519] (faults : Bytes32 → Option ConnectFault) (s : ChainState)
    (block : Block) (blockHeight : Nat) (parentWork : Bytes32) (extendsTip : Bool) :
    ChainState × Outcome Bool :=
  let blockWork := addChainWork parentWork block.header.bits
  let s := s.storeBlock block blockHeight blockWork extendsTip
  if compareWork blockWork s.bestChain.chainWork ≠ .gt then (s, .ret true)
  else s.activateBestChain faults block.getHash extendsTip

/-- The checks of `AcceptBlock` on a block whose parent is known. -/
def checkAndStore [Ed25519] (faults : Bytes32 → Option ConnectFault) (s : ChainState)
    (now : UInt64) (block : Block) (parent : BlockIndexEntry) : ChainState × Outcome Bool :=
  let blockHash := block.getHash
  let prevHash := block.header.prevBlockHash
  let blockHeight := parent.nHeight + 1
  let markInvalid := { s with invalidBlocks := insert blockHash s.invalidBlocks }
  if block.header.height.toNat ≠ blockHeight then (s, .ret false)
  else if !checkProofOfWork blockHash block.header.bits then (s, .ret false)
  else if prevHash ∈ s.invalidBlocks then (markInvalid, .ret false)
  else if (lastCheckpointHeight s.blockData).any (blockHeight < ·) then (s, .ret false)
  else
    let extendsTip : Bool := prevHash = s.bestChain.blockHash
    match BlockValidation.checkBlock block now with
    | .error (.invalid _ _) => (s, .ret false)
    | .error (.threw what) => (s, .threw what)
    | .ok () =>
      match BlockValidation.checkBlockReveals block with
      | .error (.invalid _ _) => (s, .ret false)
      | .error (.threw what) => (s, .threw what)
      | .ok () =>
        if !coinbaseOk block then (markInvalid, .ret false)
        else
          let verdict :=
            if extendsTip then
              BlockValidation.checkBlockTransactionsWithUTXO block s.utxoSet
                (UInt32.ofNat blockHeight)
            else .ok ()
          match verdict with
          | .error (.invalid _ _) => (markInvalid, .ret false)
          | .error (.threw what) => (s, .threw what)
          | .ok () => s.storeAndActivate faults block blockHeight parent.nChainWork extendsTip

/-- `AcceptBlock` at the time `now`.  The source reads the parent's entry on two branches, for
genesis and for any other parent; both fail when it is missing. -/
def acceptBlock [Ed25519] (faults : Bytes32 → Option ConnectFault) (s : ChainState) (now : UInt64)
    (block : Block) : ChainState × Outcome Bool :=
  if !s.initialized then (s, .ret false)
  else if s.blockData.hasBlock block.getHash then (s, .ret true)
  else if block.getHash ∈ s.invalidBlocks then (s, .ret false)
  else
    match s.blockData.readBlockIndex block.header.prevBlockHash with
    | none => (s, .ret false)
    | some parent => s.checkAndStore faults now block parent

/-! ## 7. Looking up a transaction -/

/-- What `GetTransaction` reports: the transaction, and the hash and the height of its block. -/
structure TxLocation where
  tx : Transaction
  blockHash : Bytes32
  height : Nat

def getTransaction (s : ChainState) (txid : Bytes32) : Option TxLocation :=
  match s.blockData.readTxIndex txid with
  | none => none
  | some blockHash =>
    match s.blockData.readBlockIndex blockHash with
    | none => none
    | some entry =>
      match s.blockData.readBlock entry.blockPos with
      | none => none
      | some block =>
        (block.transactions.find? fun tx => tx.getHash = txid).map fun tx =>
          { tx, blockHash, height := entry.nHeight }

/-- No storage failure. -/
def noFaults : Bytes32 → Option ConnectFault := fun _ => none

def flush (s : ChainState) : ChainState := s.setUTXO (s.utxoSet.flush none).1

end ChainState

end Moneu
