/-
# Blocks

`primitives/block.cpp` and the genesis block of `chainparams.cpp`.  As with transactions, a block
cannot hold more than `MAX_TRANSACTIONS` (`AddTransaction` and `Deserialize` throw beyond it).
-/
import Moneu.Primitives.Transaction

namespace Moneu

/-! ## 1. The data -/

/-- `BlockHeader`, without the cached hash. -/
structure BlockHeader where
  version : UInt32
  prevBlockHash : Bytes32
  merkleRoot : Bytes32
  leafRoot : Bytes32
  timestamp : UInt64
  height : UInt32
  bits : UInt32
  nonce : UInt32
  deriving DecidableEq

def Block.MAX_TRANSACTIONS : Nat := 10000

structure Block where
  header : BlockHeader
  transactions : List Transaction
  transactions_le : transactions.length ≤ Block.MAX_TRANSACTIONS
  deriving DecidableEq

/-! ## 2. Headers -/

namespace BlockHeader

def SERIALIZED_SIZE : Nat := 4 + 32 + 32 + 32 + 8 + 4 + 4 + 4

def serialize (hdr : BlockHeader) : List UInt8 :=
  writeLE32 hdr.version ++ (hdr.prevBlockHash.data ++ (hdr.merkleRoot.data ++
    (hdr.leafRoot.data ++ (writeLE64 hdr.timestamp ++ (writeLE32 hdr.height ++
      (writeLE32 hdr.bits ++ writeLE32 hdr.nonce))))))

def deserialize : Decoder BlockHeader := do
  Decoder.require SERIALIZED_SIZE "BlockHeader data too short"
  let version ← Decoder.le32
  let prevBlockHash ← Decoder.array 32
  let merkleRoot ← Decoder.array 32
  let leafRoot ← Decoder.array 32
  let timestamp ← Decoder.le64
  let height ← Decoder.le32
  let bits ← Decoder.le32
  let nonce ← Decoder.le32
  return { version, prevBlockHash, merkleRoot, leafRoot, timestamp, height, bits, nonce }

def getHash (hdr : BlockHeader) : Bytes32 := sha256 hdr.serialize

end BlockHeader

/-! ## 3. Merkle roots -/

/-- One level of `ComputeMerkleRoot`; an odd last node is paired with itself. -/
def merkleLevel : List Bytes32 → List Bytes32
  | [] => []
  | [a] => [sha256 (a.data ++ a.data)]
  | a :: b :: rest => sha256 (a.data ++ b.data) :: merkleLevel rest

/-- The `while (level.size() > 1)` loop: a level is shorter than the one below it, so as many
turns as there are hashes are enough. -/
def merkleFrom : Nat → List Bytes32 → Bytes32
  | _, [] => FixedBytes.zero
  | _, [a] => a
  | 0, a :: _ :: _ => a
  | n + 1, a :: b :: rest => merkleFrom n (merkleLevel (a :: b :: rest))

def computeMerkleRoot (hashes : List Bytes32) : Bytes32 := merkleFrom hashes.length hashes

namespace Block

def getHash (block : Block) : Bytes32 := block.header.getHash

def computeMerkleRoot (block : Block) : Bytes32 :=
  Moneu.computeMerkleRoot (block.transactions.map Transaction.getHash)

/-- The commitments `ComputeLeafRoot` collects from one transaction. -/
def leafCommitments (tx : Transaction) : List Bytes32 :=
  if tx.isCoinbase then []
  else tx.inputs.filterMap fun input =>
    if input.noiseProof.isEmpty then none
    else some (sha256 (input.kps.data ++ input.noiseProof))

def computeLeafRoot (block : Block) : Bytes32 :=
  Moneu.computeMerkleRoot (block.transactions.flatMap leafCommitments)

/-! ## 4. Serialization -/

def getSerializedSize (block : Block) : Nat :=
  BlockHeader.SERIALIZED_SIZE + 4 +
    (block.transactions.map fun tx => 4 + tx.getSerializedSize true).sum

/-- A transaction inside a block: its size and its bytes. -/
def serializeTx (tx : Transaction) : List UInt8 :=
  writeLE32 (UInt32.ofNat (tx.serialize true).length) ++ tx.serialize true

def serialize (block : Block) : List UInt8 :=
  block.header.serialize ++ (writeLE32 (UInt32.ofNat block.transactions.length) ++
    block.transactions.flatMap serializeTx)

/-- One turn of the transaction loop of `Block::Deserialize`. -/
def deserializeTx : Decoder Transaction := do
  Decoder.require 4 "Block truncated at transaction length"
  let txLen ← Decoder.le32
  Decoder.throwIf (txLen = 0) "Block truncated inside transaction"
  Decoder.require txLen.toNat "Block truncated inside transaction"
  let bytes ← Decoder.vec txLen.toNat
  let result ← Decoder.lift (Transaction.deserialize bytes)
  return result.1

/-- `AddTransaction` throws beyond `MAX_TRANSACTIONS`. -/
def build (header : BlockHeader) (transactions : List Transaction) : Except String Block :=
  if h : transactions.length ≤ MAX_TRANSACTIONS then
    .ok { header, transactions, transactions_le := h }
  else .error "Block transaction limit exceeded"

/-- `Block::Deserialize`; bytes after the last transaction are ignored. -/
def deserialize : Decoder Block := do
  Decoder.require (BlockHeader.SERIALIZED_SIZE + 4) "Block data too short"
  let header ← BlockHeader.deserialize
  let txCount ← Decoder.le32
  Decoder.throwIf (txCount.toNat > MAX_TRANSACTIONS) "Block transaction count implausible"
  let transactions ← Decoder.replicate deserializeTx txCount.toNat
  Decoder.lift (build header transactions)

end Block

/-! ## 5. The genesis block -/

namespace NetParams

/-- The coinbase of `BuildGenesisBlock`. -/
def genesisCoinbase : Transaction where
  version := 1
  inputs := [{ prevTxHash := FixedBytes.zero, outputIndex := 0xFFFFFFFF, pubkey := FixedBytes.zero,
               signature := FixedBytes.zero, kps := FixedBytes.zero, noiseProof := [] }]
  outputs := [TxOutput.ofPubkeyHash GENESIS_REWARD GENESIS_REWARD_PUBKEYHASH,
              { value := 0, scriptPubKey := Script.createNullData GENESIS_MESSAGE.toUTF8.toList }]
  locktime := 0
  inputs_le := by decide
  outputs_le := by decide

/-- `BuildGenesisBlock()`; `BlockBuilder::Build` fills in both roots. -/
def buildGenesisBlock : Block where
  header := { version := GENESIS_VERSION, prevBlockHash := FixedBytes.zero,
              merkleRoot := computeMerkleRoot [genesisCoinbase.getHash],
              leafRoot := computeMerkleRoot ([genesisCoinbase].flatMap Block.leafCommitments),
              timestamp := GENESIS_TIMESTAMP, height := 0, bits := POW_LIMIT_COMPACT,
              nonce := GENESIS_NONCE }
  transactions := [genesisCoinbase]
  transactions_le := by decide

/-- **The parameters reproduce the genesis hash.** -/
theorem buildGenesisBlock_getHash : buildGenesisBlock.getHash = getGenesisHash := by
  decide +kernel

end NetParams

end Moneu
