/-
# The miner

`miner.cpp`: block templates, the blocks of words a header is hashed from, and the two nonce loops
with the part of `WorkerLoop` around them.

The loops read the clocks, the stop flags, the tip and the GPU at many points.  A turn of a loop gets
what it reads as its input, one field for each point, so a list of inputs is any behaviour of the
outside.  The GPU is outside too: `GpuMiner::Search` may answer anything.  The compression function
`sha256_Transform` is a parameter, `compress`.  Hash counts, rates and the log are left out.
-/
import Moneu.Consensus.Mempool
import Moneu.Crypto.Midstate
import Moneu.Lib.Turns
import Moneu.Storage.ChainState

namespace Moneu

open NetParams ArithUint256

/-! ## 1. Headers with their cached hash -/

/-- A `BlockHeader` object: the fields, and `mBlockHash` while `mHashCached` is set. -/
structure CachedHeader where
  header : BlockHeader
  cached : Option Bytes32

namespace CachedHeader

def setTimestamp (hdr : CachedHeader) (timestamp : UInt64) : CachedHeader :=
  { header := { hdr.header with timestamp }, cached := none }

def setNonce (hdr : CachedHeader) (nonce : UInt32) : CachedHeader :=
  { header := { hdr.header with nonce }, cached := none }

def getHash (compress : Sha256.State → List UInt32 → Sha256.State) (hdr : CachedHeader) : Bytes32 :=
  hdr.cached.getD (Sha256.sha256With compress hdr.header.serialize)

end CachedHeader

def put64 (v : UInt64) : List UInt8 :=
  (List.range 8).map fun i => (v >>> UInt64.ofNat (i * 8)).toUInt8

def BlockHeader.serializeTo (hdr : BlockHeader) : List UInt8 :=
  Sha256.lowFirst hdr.version ++ (hdr.prevBlockHash.data ++ (hdr.merkleRoot.data ++
    (hdr.leafRoot.data ++ (put64 hdr.timestamp ++ (Sha256.lowFirst hdr.height ++
      (Sha256.lowFirst hdr.bits ++ Sha256.lowFirst hdr.nonce))))))

def Block.addTransaction (block : Block) (tx : Transaction) : Except String Block :=
  if h : block.transactions.length < MAX_TRANSACTIONS then
    .ok { block with
          transactions := block.transactions ++ [tx]
          transactions_le := by
            rw [List.length_append, List.length_singleton]
            exact h }
  else .error "Block transaction limit exceeded"

def Block.clearTransactions (block : Block) : Block :=
  { block with transactions := [], transactions_le := Nat.zero_le _ }

def Block.updateRoots (block : Block) : Block :=
  { block with
    header := { block.header with
                merkleRoot := block.computeMerkleRoot, leafRoot := block.computeLeafRoot } }

def Mempool.getTransactions (p : Mempool) (maxCount : Nat) : List Transaction :=
  let ranked := p.byFeeRate.entries.insertionSort fun a b => b.1.rank ≤ a.1.rank
  (ranked.filterMap fun slot => (p.index.lookup slot.2).map Mempool.Entry.tx).take maxCount

namespace ChainState

def getNextBits (s : ChainState) : UInt32 := s.getExpectedBits (s.bestChain.height + 1)

def getTipMedianTimePast (s : ChainState) : UInt64 :=
  if !s.initialized || s.bestChain.height = 0 then 0
  else s.getMedianTimePast s.bestChain.blockHash

end ChainState

namespace Miner

/-! ## 2. Block templates -/

/-- The marker of `BuildCoinbase`: height and extra nonce, in place of a public key. -/
def coinbaseMarker (height : UInt32) (extraNonce : UInt64) : Bytes32 :=
  ⟨writeLE32 height ++ (writeLE64 extraNonce ++ List.replicate 20 0), by simp⟩

def buildCoinbase (height : UInt32) (value : UInt64) (coinbaseOutputHash : Bytes32)
    (extraNonce : UInt64) : Transaction where
  version := 1
  inputs := [{ prevTxHash := FixedBytes.zero, outputIndex := 0xFFFFFFFF,
               pubkey := coinbaseMarker height extraNonce, signature := FixedBytes.zero,
               kps := FixedBytes.zero, noiseProof := [] }]
  outputs := [TxOutput.ofPubkeyHash value.toInt64 coinbaseOutputHash]
  locktime := 0
  inputs_le := Transaction.one_le_MAX_INPUTS
  outputs_le := Transaction.one_le_MAX_OUTPUTS

def valueIn (s : ChainState) : List TxInput → UInt64 → Option UInt64
  | [], totalIn => some totalIn
  | input :: rest, totalIn =>
    match s.utxoSet.getCoin input.outpoint with
    | none => none
    | some coin =>
      let newIn := totalIn + coin.value.toUInt64
      if newIn < totalIn then none else valueIn s rest newIn

def valueOut : List TxOutput → UInt64 → Option UInt64
  | [], totalOut => some totalOut
  | output :: rest, totalOut =>
    let newOut := totalOut + output.value.toUInt64
    if newOut < totalOut then none else valueOut rest newOut

def computeTxFee (s : ChainState) (tx : Transaction) : Option UInt64 :=
  if tx.isCoinbase then some 0
  else do
    let totalIn ← valueIn s tx.inputs 0
    let totalOut ← valueOut tx.outputs 0
    if totalIn < totalOut then none else some (totalIn - totalOut)

/-- What the selection loop of `BuildBlockTemplate` has so far. -/
structure Selection where
  sizeProbe : Block
  totalFees : UInt64
  body : List Transaction

/-- The selection loop of `BuildBlockTemplate`: it ends at the first transaction that does not fit,
with the probe built again from `coinbase` and the body, or where the fees overflow. -/
def selectLoop (s : ChainState) (coinbase : Transaction) :
    List Transaction → Selection → Except String Selection
  | [], sel => .ok sel
  | tx :: rest, sel =>
    match computeTxFee s tx with
    | none => selectLoop s coinbase rest sel
    | some fee => do
      let sizeProbe ← sel.sizeProbe.addTransaction tx
      if sizeProbe.getSerializedSize > MAX_BLOCK_SIZE then
        let sizeProbe ← sizeProbe.clearTransactions.addTransaction coinbase
        let sizeProbe ← sel.body.foldlM Block.addTransaction sizeProbe
        return { sel with sizeProbe }
      else if sel.totalFees + fee < sel.totalFees then return { sel with sizeProbe }
      else
        selectLoop s coinbase rest
          { sizeProbe, totalFees := sel.totalFees + fee, body := sel.body ++ [tx] }

/-- The timestamp of a template: the clock, or just past the median time of the chain. -/
def templateTime (s : ChainState) (now : UInt64) : UInt64 :=
  let mtp := s.getTipMedianTimePast
  let mtp := if mtp < GENESIS_TIMESTAMP then GENESIS_TIMESTAMP else mtp
  if now ≤ mtp then mtp + 1 else now

def templateHeight (s : ChainState) : UInt32 := UInt32.ofNat (s.bestChain.height + 1)

def templateHeader (s : ChainState) (now : UInt64) : BlockHeader where
  version := 1
  prevBlockHash := s.bestChain.blockHash
  merkleRoot := FixedBytes.zero
  leafRoot := FixedBytes.zero
  timestamp := templateTime s now
  height := templateHeight s
  bits := s.getNextBits
  nonce := 0

/-- A template without transactions. -/
def emptyTemplate (s : ChainState) (now : UInt64) : Block where
  header := templateHeader s now
  transactions := []
  transactions_le := Nat.zero_le _

def templateSubsidy (s : ChainState) : UInt64 := getBlockSubsidy (templateHeight s).toUInt64

/-- The selection of `BuildBlockTemplate`; `mMempool` may be null. -/
def selectTransactions (s : ChainState) (mempool : Option Mempool) (coinbaseOutputHash : Bytes32)
    (nowMillis now : UInt64) : Except String Selection :=
  match mempool with
  | none => .ok { sizeProbe := emptyTemplate s now, totalFees := 0, body := [] }
  | some pool => do
    let coinbase := buildCoinbase (templateHeight s) (templateSubsidy s) coinbaseOutputHash nowMillis
    let sizeProbe ← (emptyTemplate s now).addTransaction coinbase
    selectLoop s coinbase (pool.getTransactions Block.MAX_TRANSACTIONS)
      { sizeProbe, totalFees := 0, body := [] }

def buildBlockTemplate (s : ChainState) (mempool : Option Mempool) (coinbaseOutputHash : Bytes32)
    (nowMillis now : UInt64) : Except String Block := do
  let selection ← selectTransactions s mempool coinbaseOutputHash nowMillis now
  let fees := BlockValidation.minerFeesAtHeight (templateHeight s) selection.totalFees
  let block ← (emptyTemplate s now).addTransaction
    (buildCoinbase (templateHeight s) (templateSubsidy s + fees) coinbaseOutputHash nowMillis)
  let block ← selection.body.foldlM Block.addTransaction block
  return block.updateRoots

/-! ## 3. Hashing a header -/

section Compress

variable (compress : Sha256.State → List UInt32 → Sha256.State)

/-- What `BuildMiningBlocks` fills in. -/
structure MiningBlocks where
  midstate : Sha256.State
  block2 : List UInt32
  block3 : List UInt32

def buildMiningBlocks (hdr : BlockHeader) : MiningBlocks :=
  let buf := hdr.serializeTo
  let block1 := (List.range 16).map fun i => Sha256.wordAt buf (i * 4)
  { midstate := compress Sha256.initialHashValue block1
    block2 := ((List.range 14).map fun i => Sha256.wordAt buf (64 + i * 4)) ++ [0x80000000, 0]
    block3 := List.replicate 15 0 ++ [UInt32.ofNat (BlockHeader.SERIALIZED_SIZE * 8)] }

/-- `block2[13]` is the nonce, byte-swapped. -/
def MiningBlocks.withNonce (work : MiningBlocks) (nonce : UInt32) : MiningBlocks :=
  { work with block2 := work.block2.set 13 (Sha256.byteSwap nonce) }

/-- The two transforms after the midstate. -/
def MiningBlocks.hashWords (work : MiningBlocks) : Sha256.State :=
  compress (compress work.midstate work.block2) work.block3

def hashBytes (hw : Sha256.State) : Bytes32 :=
  ⟨[hw.a, hw.b, hw.c, hw.d, hw.e, hw.f, hw.g, hw.h].flatMap Sha256.highFirst, rfl⟩

def targetTop (target : ArithUint256) : UInt32 := Sha256.wordAt (toBytes32 target).data 0

/-! ## 4. The nonce loop on the CPU -/

def TEMPLATE_REFRESH_MS : UInt64 := 15000

/-- What one turn of `RunNonceLoop` reads: `mMining && !mStop`, the tip (if there is a chain state),
the milliseconds of the refresh test, the seconds of the test for an old timestamp, and the seconds
read when all nonces are used up. -/
structure CpuReadings where
  mining : Bool
  bestBlockHash : Option Bytes32
  millis : UInt64
  seconds : UInt64
  secondsAtEnd : UInt64

/-- The variables of `RunNonceLoop` that change. -/
structure CpuState where
  hdr : CachedHeader
  nonce : UInt32
  localHashes : UInt64
  work : MiningBlocks

/-- The constants of a nonce loop. -/
structure Job where
  target : ArithUint256
  startMs : UInt64
  builtOn : Bytes32

/-- `mChainState && !(mChainState->GetBestBlockHash() == builtOn)`. -/
def Job.tipMoved (job : Job) (bestBlockHash : Option Bytes32) : Bool :=
  match bestBlockHash with
  | none => false
  | some hash => hash ≠ job.builtOn

/-- `NowMillis() - startMs > TEMPLATE_REFRESH_MS`, in unsigned arithmetic. -/
def Job.outdated (job : Job) (millis : UInt64) : Bool := millis - job.startMs > TEMPLATE_REFRESH_MS

/-- `hdr.SetTimestamp(seconds)`, and the blocks of words built again. -/
def restamp (hdr : CachedHeader) (seconds : UInt64) : CachedHeader × MiningBlocks :=
  (hdr.setTimestamp seconds, buildMiningBlocks compress (hdr.setTimestamp seconds).header)

/-- The checks of every 65536th turn: `none` if the loop gives up. -/
def poll (job : Job) (s : CpuState) (r : CpuReadings) : Option (CachedHeader × MiningBlocks) :=
  if (s.localHashes + 1) &&& 0xFFFF = 0 then
    if job.tipMoved r.bestBlockHash then none
    else if job.outdated r.millis then none
    else if r.seconds > s.hdr.header.timestamp + 60 then some (restamp compress s.hdr r.seconds)
    else some (s.hdr, s.work)
  else some (s.hdr, s.work)

/-- The two comparisons a hash has to pass. -/
def Job.meets (job : Job) (hw : Sha256.State) : Bool :=
  hw.a ≤ targetTop job.target && ofBytes32 (hashBytes hw) ≤ job.target

/-- One turn of `RunNonceLoop`. -/
def cpuTurn (job : Job) (s : CpuState) (r : CpuReadings) : Turn CpuState (Bool × CachedHeader) :=
  if !r.mining then .done (false, s.hdr)
  else
    match poll compress job s r with
    | none => .done (false, s.hdr)
    | some (hdr, work) =>
      let localHashes := s.localHashes + 1
      let work := work.withNonce s.nonce
      if job.meets (work.hashWords compress) then .done (true, hdr.setNonce s.nonce)
      else if s.nonce = 0xFFFFFFFF then
        let (hdr, work) := restamp compress hdr r.secondsAtEnd
        .next { hdr, nonce := 0, localHashes, work }
      else .next { hdr, nonce := s.nonce + 1, localHashes, work }

/-- The test of the target both loops start with. -/
def usable (target : Compact) : Bool :=
  !(target.negative || target.overflow || target.value = 0)

/-- The constants of a loop over the header. -/
def jobOf (hdr : CachedHeader) (startMs : UInt64) : Job where
  target := (setCompact hdr.header.bits).value
  startMs := startMs
  builtOn := hdr.header.prevBlockHash

def cpuStart (hdr : CachedHeader) : CpuState where
  hdr := hdr
  nonce := hdr.header.nonce
  localHashes := 0
  work := buildMiningBlocks compress hdr.header

/-- `RunNonceLoop`: `none` while it is running. -/
def runNonceLoop (hdr : CachedHeader) (startMs : UInt64) (readings : List CpuReadings) :
    Option (Bool × CachedHeader) :=
  if usable (setCompact hdr.header.bits) then
    Turn.run (cpuTurn compress (jobOf hdr startMs)) (cpuStart compress hdr) readings
  else some (false, hdr)

/-! ## 5. The nonce loop on the GPU -/

/-- What one turn of `RunNonceLoopGpu` reads; `hit`, `foundNonce` and `reason` are what
`GpuMiner::Search` answers. -/
structure GpuReadings where
  mining : Bool
  bestBlockHash : Option Bytes32
  millis : UInt64
  hit : Bool
  foundNonce : UInt32
  reason : String
  secondsAtEnd : UInt64

/-- The variables of `RunNonceLoopGpu` that change. -/
structure GpuState where
  hdr : CachedHeader
  work : MiningBlocks
  nonceBase : UInt64

/-- What `RunNonceLoopGpu` returns, and `mUseGpu` after it. -/
structure GpuResult where
  found : Bool
  useGpu : Bool
  hdr : CachedHeader

def BATCH : UInt64 := (1 : UInt64) <<< 20

/-- The number of nonces handed to the GPU from `nonceBase` on. -/
def batchCount (nonceBase : UInt64) : UInt64 :=
  if nonceBase + BATCH > 0x100000000 then 0x100000000 - nonceBase else BATCH

/-- The end of a turn: when the nonces are used up, the header gets the time and they start again. -/
def advance (s : GpuState) (nonceBase secondsAtEnd : UInt64) : GpuState :=
  if nonceBase ≥ 0x100000000 then
    let (hdr, work) := restamp compress s.hdr secondsAtEnd
    { hdr, work, nonceBase := 0 }
  else { s with nonceBase }

/-- One turn of `RunNonceLoopGpu`. -/
def gpuTurn (job : Job) (s : GpuState) (r : GpuReadings) : Turn GpuState GpuResult :=
  if !r.mining then .done { found := false, useGpu := true, hdr := s.hdr }
  else if job.tipMoved r.bestBlockHash then .done { found := false, useGpu := true, hdr := s.hdr }
  else if job.outdated r.millis then .done { found := false, useGpu := true, hdr := s.hdr }
  else if r.reason ≠ "" then .done { found := false, useGpu := false, hdr := s.hdr }
  else if r.hit then
    -- The GPU compares first words only, so the hash is computed again.
    let hw := (s.work.withNonce r.foundNonce).hashWords compress
    if ofBytes32 (hashBytes hw) ≤ job.target then
      .done { found := true, useGpu := true, hdr := s.hdr.setNonce r.foundNonce }
    else .next (advance compress s (r.foundNonce.toUInt64 + 1) r.secondsAtEnd)
  else .next (advance compress s (s.nonceBase + batchCount s.nonceBase) r.secondsAtEnd)

def gpuStart (hdr : CachedHeader) : GpuState where
  hdr := hdr
  work := buildMiningBlocks compress hdr.header
  nonceBase := 0

/-- `RunNonceLoopGpu`: `none` while it is running. -/
def runNonceLoopGpu (hdr : CachedHeader) (startMs : UInt64) (readings : List GpuReadings) :
    Option GpuResult :=
  if usable (setCompact hdr.header.bits) then
    Turn.run (gpuTurn compress (jobOf hdr startMs)) (gpuStart compress hdr) readings
  else some { found := false, useGpu := true, hdr }

/-! ## 6. One template in `WorkerLoop` -/

/-- What the two loops read while a worker searches one template. -/
structure SearchReadings where
  gpuStartMs : UInt64
  gpu : List GpuReadings
  cpuStartMs : UInt64
  cpu : List CpuReadings

/-- The search of `WorkerLoop` for one template: on the GPU if it is in use, and on the CPU if it is
not, or if it failed meanwhile. -/
def workerSearch (useGpu : Bool) (hdr : CachedHeader) (r : SearchReadings) :
    Option (Bool × CachedHeader) :=
  if useGpu then
    match runNonceLoopGpu compress hdr r.gpuStartMs r.gpu with
    | none => none
    | some result =>
      if !result.found && !result.useGpu then
        runNonceLoop compress result.hdr r.cpuStartMs r.cpu
      else some (result.found, result.hdr)
  else runNonceLoop compress hdr r.cpuStartMs r.cpu

end Compress

end Miner

end Moneu
