/-
# Block files and the block index

`storage/block_data.cpp` and `storage/block_undo.cpp`.  Blocks are appended to numbered files as
records (magic, size, serialized block); the index database maps a block hash to the position of
its record, holds the undo blob of every block ever connected, and maps a txid to a block.

The fields of an index entry that no modelled function reads (version, Merkle root, nonce,
transaction count, `hasData`) and the statistics in `BlockFileInfo` are left out.
-/
import Mathlib.Data.List.AList
import Moneu.Primitives.Block
import Moneu.Storage.UTXOSet

namespace Moneu

open NetParams

/-! ## 1. Undo records -/

structure TxUndo where
  spentCoins : List Coin
  deriving DecidableEq

/-- `BlockUndo`: one entry for each transaction after the coinbase. -/
structure BlockUndo where
  txUndo : List TxUndo
  deriving DecidableEq

namespace BlockUndo

def writeCoin (c : Coin) : List UInt8 :=
  writeLE64 c.value.toUInt64 ++ (writeLE32 c.height ++
    ([if c.isCoinbase then 1 else 0] ++ ([if c.isSpent then 1 else 0] ++ c.pubkeyHash.data)))

def COIN_BLOB_SIZE : Nat := 8 + 4 + 1 + 1 + 32

def readCoin : Decoder Coin := do
  let value ← Decoder.le64
  let height ← Decoder.le32
  let isCoinbase ← Decoder.u8
  let isSpent ← Decoder.u8
  let pubkeyHash ← Decoder.array 32
  return { value := value.toInt64, pubkeyHash, height, isCoinbase := isCoinbase ≠ 0,
           isSpent := isSpent ≠ 0 }

/-- The record of one transaction. -/
def writeTxUndo (tu : TxUndo) : List UInt8 :=
  writeLE32 (UInt32.ofNat tu.spentCoins.length) ++ tu.spentCoins.flatMap writeCoin

def serialize (undo : BlockUndo) : List UInt8 :=
  writeLE32 (UInt32.ofNat undo.txUndo.length) ++ undo.txUndo.flatMap writeTxUndo

/-- One turn of the loop of `BlockUndo::Deserialize`. -/
def readTxUndo : Decoder TxUndo := do
  Decoder.require 4 "BlockUndo: truncated at input count"
  let coinCount ← Decoder.le32
  Decoder.throwIf (coinCount.toNat > Block.MAX_TRANSACTIONS) "BlockUndo: coin count implausible"
  Decoder.require (coinCount.toNat * COIN_BLOB_SIZE) "BlockUndo: truncated inside coins"
  let spentCoins ← Decoder.replicate readCoin coinCount.toNat
  return { spentCoins }

def deserialize : Decoder BlockUndo := do
  Decoder.require 4 "BlockUndo: data too short"
  let txCount ← Decoder.le32
  Decoder.throwIf (txCount.toNat > Block.MAX_TRANSACTIONS)
    "BlockUndo: transaction count implausible"
  let txUndo ← Decoder.replicate readTxUndo txCount.toNat
  return { txUndo }

end BlockUndo

/-! ## 2. The data -/

def MAX_BLOCK_FILE_SIZE : Nat := 128 * 1024 * 1024

/-- `DiskBlockPos`; file number `-1` is the null position. -/
structure DiskBlockPos where
  nFile : Int
  nPos : Nat
  deriving DecidableEq

structure BlockIndexEntry where
  hashPrev : Bytes32
  nTime : UInt64
  nHeight : Nat
  nBits : UInt32
  nChainWork : Bytes32
  blockPos : DiskBlockPos
  deriving DecidableEq

/-- What the block store has on disk. -/
structure BlockDB where
  index : AList fun _ : Bytes32 => BlockIndexEntry
  undo : AList fun _ : Bytes32 => List UInt8
  txIndex : AList fun _ : Bytes32 => Bytes32
  lastBlockFile : Option Int
  files : AList fun _ : Int => List UInt8

def BlockDB.empty : BlockDB :=
  { index := ∅, undo := ∅, txIndex := ∅, lastBlockFile := none, files := ∅ }

/-- `BlockData`, with the store it owns and the contents after each of its writes. -/
structure BlockData where
  db : BlockDB
  lastBlockFile : Int
  trail : List BlockDB

namespace BlockData

def openDB (db : BlockDB) : BlockData :=
  { db, lastBlockFile := db.lastBlockFile.getD 0, trail := [] }

def write (bd : BlockData) (db : BlockDB) : BlockData := { bd with db, trail := db :: bd.trail }

def readBlockIndex (bd : BlockData) (blockHash : Bytes32) : Option BlockIndexEntry :=
  bd.db.index.lookup blockHash

def hasBlock (bd : BlockData) (blockHash : Bytes32) : Bool := (bd.readBlockIndex blockHash).isSome

def readTxIndex (bd : BlockData) (txid : Bytes32) : Option Bytes32 := bd.db.txIndex.lookup txid

def writeTxIndex (bd : BlockData) (txid blockHash : Bytes32) : BlockData :=
  bd.write { bd.db with txIndex := bd.db.txIndex.insert txid blockHash }

def readBlockUndo (bd : BlockData) (blockHash : Bytes32) : Option BlockUndo :=
  match bd.db.undo.lookup blockHash with
  | none => none
  | some blob =>
    match BlockUndo.deserialize blob with
    | .error _ => none
    | .ok (undo, _) => some undo

/-! ## 3. Block files -/

/-- The bytes of a block file; a file that does not exist is empty. -/
def file (db : BlockDB) (nFile : Int) : List UInt8 := (db.files.lookup nFile).getD []

/-- The record `WriteBlockToDisk` appends: magic, size, block. -/
def record (block : Block) : List UInt8 :=
  MAINNET_MAGIC ++ (leBytes 4 block.serialize.length ++ block.serialize)

/-- Append bytes to a block file. -/
def append (db : BlockDB) (nFile : Int) (bytes : List UInt8) : BlockDB :=
  { db with files := db.files.insert nFile (file db nFile ++ bytes) }

/-- The first half of `WriteBlockToDisk`: the file to append to and the size it is taken to have.
The next file is started when the block does not fit into the current one; its size is then SET
to zero, not read. -/
def selectFile (bd : BlockData) (block : Block) : BlockData × Nat :=
  let currentSize := (file bd.db bd.lastBlockFile).length
  if currentSize + block.serialize.length + 8 > MAX_BLOCK_FILE_SIZE then
    let nFile := bd.lastBlockFile + 1
    ({ bd.write { bd.db with lastBlockFile := some nFile } with lastBlockFile := nFile }, 0)
  else (bd, currentSize)

def writeBlockToDisk (bd : BlockData) (block : Block) : BlockData × DiskBlockPos :=
  let (bd, currentSize) := bd.selectFile block
  (bd.write (append bd.db bd.lastBlockFile (record block)),
    { nFile := bd.lastBlockFile, nPos := currentSize })

/-- `WriteBlockToDisk` when the write fails after `written` bytes: it throws, and what was
written stays in the file. -/
def writeBlockToDiskFailed (bd : BlockData) (block : Block) (written : Nat) : BlockData :=
  let (bd, _) := bd.selectFile block
  bd.write (append bd.db bd.lastBlockFile ((record block).take written))

/-- `ReadBlockFromDisk` on the bytes from the position on. -/
def readRecord (bytes : List UInt8) : Option Block :=
  if bytes.length < 8 then none
  else if bytes.take 4 ≠ MAINNET_MAGIC then none
  else
    let dataSize := leValue ((bytes.drop 4).take 4)
    let data := bytes.drop 8
    if dataSize = 0 ∨ dataSize > MAX_BLOCK_SIZE then none
    else if data.length < dataSize then none
    else
      match Block.deserialize (data.take dataSize) with
      | .error _ => none
      | .ok (block, _) => some block

def readBlock (bd : BlockData) (pos : DiskBlockPos) : Option Block :=
  if pos.nFile = -1 then none
  else
    match bd.db.files.lookup pos.nFile with
    | none => none
    | some bytes => readRecord (bytes.drop pos.nPos)

/-! ## 4. Writing blocks -/

def indexEntry (block : Block) (height : Nat) (chainWork : Bytes32) (pos : DiskBlockPos) :
    BlockIndexEntry where
  hashPrev := block.header.prevBlockHash
  nTime := block.header.timestamp
  nHeight := height
  nBits := block.header.bits
  nChainWork := chainWork
  blockPos := pos

/-- `WriteBlock`: the record, the index entry and one write for each transaction. -/
def writeBlock (bd : BlockData) (block : Block) (height : Nat) (chainWork : Bytes32) : BlockData :=
  let (bd, pos) := bd.writeBlockToDisk block
  let blockHash := block.getHash
  let entry := indexEntry block height chainWork pos
  let bd := bd.write { bd.db with index := bd.db.index.insert blockHash entry }
  block.transactions.foldl (fun bd tx => bd.writeTxIndex tx.getHash blockHash) bd

/-- The second half of `WriteBlockConnected`: the index entry, the undo record and the
transaction index in one batch. -/
def writeConnectedBatch (bd : BlockData) (block : Block) (height : Nat) (chainWork : Bytes32)
    (undo : BlockUndo) (pos : DiskBlockPos) : BlockData :=
  let blockHash := block.getHash
  bd.write { bd.db with
    index := bd.db.index.insert blockHash (indexEntry block height chainWork pos)
    undo := bd.db.undo.insert blockHash undo.serialize
    txIndex := block.transactions.foldl (fun t tx => t.insert tx.getHash blockHash)
      bd.db.txIndex }

def writeBlockConnected (bd : BlockData) (block : Block) (height : Nat) (chainWork : Bytes32)
    (undo : BlockUndo) : BlockData :=
  let (bd, pos) := bd.writeBlockToDisk block
  bd.writeConnectedBatch block height chainWork undo pos

end BlockData

end Moneu
