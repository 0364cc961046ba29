/-
# Start-up and replay

`ChainState::Initialize` and what it calls: the genesis block on a fresh disk, the replay of
blocks when the UTXO set does not belong to the stored tip, and the height table.
-/
import Moneu.Storage.ChainState

namespace Moneu

open NetParams

namespace ChainState

/-! ## 1. Walks between two blocks -/

/-- The loop of `AncestorPathLocked`. -/
def ancestorPathFrom (bd : BlockData) (toHash : Bytes32) : Nat → Bytes32 → Option (List Bytes32)
  | 0, _ => none
  | steps + 1, cursor =>
    match bd.readBlockIndex cursor with
    | none => none
    | some entry =>
      if entry.hashPrev = toHash then some [cursor]
      else if entry.nHeight = 0 then none
      else (ancestorPathFrom bd toHash steps entry.hashPrev).map (cursor :: ·)

/-- `maxSteps` of the three walks. -/
def maxSteps (s : ChainState) : Nat := s.bestChain.height + 2

/-- `AncestorPathLocked`: the blocks from `fromHash` down to, but without, `toHash`. -/
def ancestorPath (s : ChainState) (fromHash toHash : Bytes32) : Option (List Bytes32) :=
  if fromHash = toHash then some [] else ancestorPathFrom s.blockData toHash s.maxSteps fromHash

/-- Walk down to a height, for at most the given number of steps. -/
def lowerTo (bd : BlockData) (height : Nat) :
    Nat → Bytes32 × BlockIndexEntry → Option (Bytes32 × BlockIndexEntry)
  | 0, c => some c
  | steps + 1, c =>
    if c.2.nHeight > height then
      match bd.readBlockIndex c.2.hashPrev with
      | none => none
      | some entry => lowerTo bd height steps (c.2.hashPrev, entry)
    else some c

/-- Walk down on both sides until the two cursors meet. -/
def meet (bd : BlockData) :
    Nat → Bytes32 × BlockIndexEntry → Bytes32 × BlockIndexEntry → Option Bytes32
  | 0, _, _ => none
  | steps + 1, a, b =>
    if a.1 = b.1 then some a.1
    else if a.2.nHeight = 0 ∨ b.2.nHeight = 0 then none
    else
      match bd.readBlockIndex a.2.hashPrev, bd.readBlockIndex b.2.hashPrev with
      | some ea, some eb => meet bd steps (a.2.hashPrev, ea) (b.2.hashPrev, eb)
      | _, _ => none

def lastCommonAncestor (s : ChainState) (a b : Bytes32) : Option Bytes32 :=
  match s.blockData.readBlockIndex a, s.blockData.readBlockIndex b with
  | some ea, some eb =>
    match lowerTo s.blockData eb.nHeight s.maxSteps (a, ea) with
    | none => none
    | some ca =>
      match lowerTo s.blockData ca.2.nHeight s.maxSteps (b, eb) with
      | none => none
      | some cb => meet s.blockData s.maxSteps ca cb
  | _, _ => none

/-- The walk from the tip to genesis of a full replay, genesis included. -/
def pathToGenesis (bd : BlockData) : Nat → Bytes32 → Option (List Bytes32)
  | 0, _ => none
  | steps + 1, cursor =>
    if cursor = getGenesisHash then some [cursor]
    else
      match bd.readBlockIndex cursor with
      | none => none
      | some entry => (pathToGenesis bd steps entry.hashPrev).map (cursor :: ·)

/-! ## 2. Rolling blocks forward and back -/

/-- The loop of `RollforwardBlockLocked` from transaction `i` on. -/
def replayTxs (height : UInt32) : Nat → List Transaction → UTXOSet → UTXOSet × Bool
  | _, [], u => (u, true)
  | i, tx :: rest, u =>
    match u.applyTransactionForReplay tx height (i = 0 && tx.isCoinbase) with
    | (u, false) => (u, false)
    | (u, true) => replayTxs height (i + 1) rest u

def rollforwardBlock (s : ChainState) (blockHash : Bytes32) (height : Nat) : ChainState × Bool :=
  match s.loadBlock blockHash with
  | none => (s, false)
  | some block =>
    if block.getHash ≠ blockHash then (s, false)
    else
      match replayTxs (UInt32.ofNat height) 0 block.transactions s.utxoSet with
      | (u, ok) => (s.setUTXO u, ok)

def rollbackBlock (s : ChainState) (blockHash : Bytes32) (height : Nat) : ChainState × Bool :=
  if height = 0 then (s, true)
  else
    match s.loadBlock blockHash with
    | none => (s, false)
    | some block =>
      match s.blockData.readBlockUndo blockHash with
      | none => (s, false)
      | some undo =>
        match s.utxoSet.undoBlockTwoPhase block undo with
        | (u, ok) => (s.setUTXO u, ok)

/-- One of the two replay loops: each block is looked up in the index for its height. -/
def forEachBlock (step : ChainState → Bytes32 → Nat → ChainState × Bool) :
    ChainState → List Bytes32 → ChainState × Bool
  | s, [] => (s, true)
  | s, hash :: rest =>
    match s.blockData.readBlockIndex hash with
    | none => (s, false)
    | some entry =>
      match step s hash entry.nHeight with
      | (s, false) => (s, false)
      | (s, true) => forEachBlock step s rest

/-- The end of `ReplayBlocksLocked`: roll back, roll forward, commit. -/
def replayBetween (s : ChainState) (rollback rollforward : List Bytes32) : ChainState × Bool :=
  match forEachBlock rollbackBlock s rollback with
  | (s, false) => (s, false)
  | (s, true) =>
    match forEachBlock rollforwardBlock s rollforward with
    | (s, false) => (s, false)
    | (s, true) =>
      let target := s.bestChain.blockHash
      let s := s.setUTXO ((s.utxoSet.setBestBlock target).flush none).1
      (s, s.utxoSet.getBestBlock = target)

/-- The block `ReplayBlocksLocked` starts from: the old tip of the marker, else the best block of
the UTXO set. -/
def replaySource (s : ChainState) : Bytes32 :=
  match s.utxoSet.getHeadBlocks with
  | some (_, markedOld) => markedOld
  | none => s.utxoSet.getBestBlock

def replayBlocks (s : ChainState) : ChainState × Bool :=
  let target := s.bestChain.blockHash
  let source := s.replaySource
  if source.isZero then
    match pathToGenesis s.blockData s.maxSteps target with
    | none => (s, false)
    | some path => s.replayBetween [] path.reverse
  else if source = target then
    if s.utxoSet.getHeadBlocks.isSome then (s.setUTXO (s.utxoSet.flush none).1, true)
    else (s, true)
  else
    match s.lastCommonAncestor source target with
    | none => (s, false)
    | some fork =>
      match s.ancestorPath source fork, s.ancestorPath target fork with
      | some rollback, some rollforward => s.replayBetween rollback rollforward.reverse
      | _, _ => (s, false)

/-! ## 3. Initialize -/

/-- The loop of `InitializeGenesisLocked` over the transactions, from number `i` on. -/
def applyGenesisTxs : Nat → List Transaction → UTXOSet → UTXOSet × Bool
  | _, [], u => (u, true)
  | i, tx :: rest, u =>
    match u.applyTransaction tx 0 (i = 0 && tx.isCoinbase) with
    | .error _ => (u, false)
    | .ok (u, _) => applyGenesisTxs (i + 1) rest u

/-- The tip a new chain starts with. -/
def genesisTip : ChainTip where
  blockHash := getGenesisHash
  height := 0
  timestamp := buildGenesisBlock.header.timestamp
  bits := buildGenesisBlock.header.bits
  chainWork := addChainWork FixedBytes.zero buildGenesisBlock.header.bits

/-- `InitializeGenesisLocked` after the coins of the genesis block: the block, the tip, the two
records and the UTXO flush. -/
def commitGenesis (s : ChainState) : ChainState :=
  let s := s.setBlockData (s.blockData.writeBlock buildGenesisBlock 0 genesisTip.chainWork)
  let s := { s with bestChain := genesisTip, chainByHeight := [getGenesisHash] }
  let s := s.writeChain { s.chainDB with best := some s.bestChain }
  let s := s.writeChain { s.chainDB with genesis := some getGenesisHash }
  s.setUTXO ((s.utxoSet.setBestBlock getGenesisHash).flush none).1

def initializeGenesis (s : ChainState) : ChainState × Bool :=
  if getGenesisHash.isZero then (s, true)
  else if buildGenesisBlock.getHash ≠ getGenesisHash then (s, false)
  else
    match applyGenesisTxs 0 buildGenesisBlock.transactions s.utxoSet with
    | (u, false) => (s.setUTXO u, false)
    | (u, true) => ((s.setUTXO u).commitGenesis, true)

def verifyGenesisBlock (s : ChainState) : Bool :=
  getGenesisHash.isZero || s.chainDB.genesis.all (· = getGenesisHash)

/-- The walk of `BuildHeightIndexLocked`: the hashes from the tip down to height 0. -/
def heightWalk (bd : BlockData) : Nat → Bytes32 → Option (List Bytes32)
  | 0, cursor => some [cursor]
  | h + 1, cursor =>
    match bd.readBlockIndex cursor with
    | none => none
    | some entry => (heightWalk bd h entry.hashPrev).map (cursor :: ·)

/-- `BuildHeightIndexLocked`; a walk that breaks leaves the table empty. -/
def buildHeightIndex (s : ChainState) : ChainState :=
  { s with
    chainByHeight :=
      if s.bestChain.blockHash.isZero then []
      else ((heightWalk s.blockData s.bestChain.height s.bestChain.blockHash).getD []).reverse }

/-- `LoadBestChain`, and the genesis block when there is no record yet. -/
def loadOrCreate (s : ChainState) : ChainState × Bool :=
  match s.chainDB.best with
  | some tip => ({ s with bestChain := tip }, true)
  | none => { s with bestChain := ChainTip.null, chainByHeight := [] }.initializeGenesis

/-- The second half of `Initialize`: replay if the UTXO set does not belong to the tip. -/
def reconcile (s : ChainState) : ChainState × Outcome Bool :=
  let interrupted := s.utxoSet.getHeadBlocks.isSome
  if interrupted ∨ s.utxoSet.getBestBlock ≠ s.bestChain.blockHash then
    match s.replayBlocks with
    | (s, false) =>
      (s, .threw ("Chain tip and UTXO set disagree - the recorded " ++
        "block is not an ancestor of the tip"))
    | (s, true) => ({ s with initialized := true }.buildHeightIndex, .ret true)
  else ({ s with initialized := true }.buildHeightIndex, .ret true)

def initializeState (s : ChainState) : ChainState × Outcome Bool :=
  if !s.verifyGenesisBlock then
    (s, .threw "Genesis block mismatch - chain data does not belong to this network")
  else
    match s.loadOrCreate with
    | (s, false) =>
      (s, .threw ("Failed to initialize genesis block - " ++
        "chainparams do not reproduce the genesis hash?"))
    | (s, true) => s.reconcile

/-! ## 4. Runs of a node -/

/-- A node started on an empty disk. -/
def fresh : ChainState × Outcome Bool := (openDisk Disk.empty).initializeState

/-- A clean shutdown: `Flush`, and the flush in the destructor of the UTXO set. -/
def close (s : ChainState) : ChainState := s.flush.flush

/-- A clean close followed by a start on what is on disk then. -/
def reopen (s : ChainState) : ChainState × Outcome Bool := (openDisk s.close.disk).initializeState

end ChainState

end Moneu
