/-
# The memory pool

`consensus/mempool.cpp`.  The pool keeps its entries in a hash table and beside it four indexes:
by fee rate, by time, by the outpoints spent and by the noise leaves used.

The hexadecimal and binary strings that key these tables are injective encodings, so the model
keys them by what they encode.  Maps are association lists; `begin()` of the two ordered ones is
the least key.  `size_t`, `uint64_t` and `int64_t` stay machine integers: the sequence number and
the byte count can wrap.

The rolling minimum fee rate is a `double`.  Its value is a rational number, and what the machine
makes of a conversion from `int64_t` and of a quotient with `std::pow` is a parameter (`Doubles`).

A clock reading is an argument of every function that reads the clock.  Log lines are left out.
-/
import Mathlib.Data.List.MinMax
import Mathlib.Data.Prod.Lex
import Mathlib.Data.Rat.Floor
import Moneu.Lib.Worklist
import Moneu.Storage.UTXOSet

namespace Moneu

open NetParams

/-- The two operations on `double` that round. -/
class Doubles where
  /-- `static_cast<double>(n)`. -/
  ofInt64 : Int64 → ℚ
  /-- `rate / std::pow(2.0, elapsed / halflife)`. -/
  decay : (rate : ℚ) → (elapsed : Int64) → (halflife : ℚ) → ℚ

/-- `std::llround`: to the nearest integer, halves away from zero. -/
def llround (r : ℚ) : Int64 := Int64.ofInt (if 0 ≤ r then ⌊r + 1 / 2⌋ else ⌈r - 1 / 2⌉)

/-! ## 1. The data -/

/-- `FeeKey` and `TimeKey`: `std::pair<int64_t, uint64_t>`. -/
abbrev RankKey := Int64 × UInt64

/-- A `std::map` from such keys to transaction hashes. -/
abbrev RankMap := AList fun _ : RankKey => Bytes32

/-- The order of `std::pair`. -/
def RankKey.rank (k : RankKey) : ℤ ×ₗ ℕ := toLex (k.1.toInt, k.2.toNat)

instance RankKey.preorder : Preorder (ℤ ×ₗ ℕ) := (Prod.Lex.instLinearOrder ℤ ℕ).toPreorder

/-- `map.begin()`, if there is one. -/
def RankMap.first (m : RankMap) : Option (Sigma fun _ : RankKey => Bytes32) :=
  m.entries.argmin fun slot => RankKey.rank slot.1

namespace Mempool

structure Entry where
  tx : Transaction
  fee : Int64
  size : UInt64
  feePerK : Int64
  seq : UInt64
  entryTime : Int64
  leafKeys : List NoiseLeafKey

def Entry.feeKey (e : Entry) : RankKey := (e.feePerK, e.seq)

def Entry.timeKey (e : Entry) : RankKey := (e.entryTime, e.seq)

def outpoints (tx : Transaction) : List OutPoint := tx.inputs.map TxInput.outpoint

def DEFAULT_MAX_BYTES : UInt64 := 300 * 1000 * 1000
def MEMPOOL_EXPIRY_SECONDS : Int64 := 336 * 3600
def INCREMENTAL_FEE_PER_K : Int64 := 1000
def MAX_ANCESTORS : Nat := 25
def MAX_DESCENDANTS : Nat := 25
def PERSIST_VERSION : UInt32 := 1
def PERSIST_MAX_ENTRIES : UInt32 := 500000
def ROLLING_FEE_HALFLIFE : Int64 := 12 * 3600

end Mempool

structure Mempool where
  index : AList fun _ : Bytes32 => Mempool.Entry
  byFeeRate : RankMap
  byTime : RankMap
  spends : AList fun _ : OutPoint => Bytes32
  leafSpends : AList fun _ : NoiseLeafKey => Bytes32
  sequenceCounter : UInt64
  maxBytes : UInt64
  totalBytes : UInt64
  rollingMinFeeRate : ℚ
  lastRollingFeeUpdate : Int64
  blockSinceFeeBump : Bool

namespace Mempool

def new (maxBytes : UInt64) : Mempool where
  index := ∅
  byFeeRate := ∅
  byTime := ∅
  spends := ∅
  leafSpends := ∅
  sequenceCounter := 0
  maxBytes := maxBytes
  totalBytes := 0
  rollingMinFeeRate := 0
  lastRollingFeeUpdate := 0
  blockSinceFeeBump := false

/-! ## 2. Admission checks -/

/-- The loop of `ExtractLeafKeys` over the inputs: the keys read before the first malformed proof,
and whether there was none. -/
def extractLeafKeysFrom : List TxInput → List NoiseLeafKey × Bool
  | [] => ([], true)
  | input :: rest =>
    let keys := (NoiseProof.readAll input.noiseProof).1.map fun proof =>
      { kps := input.kps, leafIndex := proof.leafIndex }
    match (NoiseProof.readAll input.noiseProof).2 with
    | some _ => (keys, false)
    | none => (keys ++ (extractLeafKeysFrom rest).1, (extractLeafKeysFrom rest).2)

def extractLeafKeys (tx : Transaction) : List NoiseLeafKey × Bool := extractLeafKeysFrom tx.inputs

/-- `mIndex.find(hashKey) != mIndex.end()`, which is also `HasTransaction`. -/
def hasTransaction (p : Mempool) (txHash : Bytes32) : Bool := txHash ∈ p.index

def validateForPool (p : Mempool) (tx : Transaction) (fee : Int64) : Except String Bool :=
  match tx.isValid with
  | .error what => .error what
  | .ok false => .ok false
  | .ok true =>
    if tx.isCoinbase then .ok false
    else if fee < 0 then .ok false
    else if p.hasTransaction tx.getHash then .ok false
    else tx.getValueOut.map fun valueOut => !(valueOut < 0) && !(valueOut < DUST_THRESHOLD)

/-- The half-life at the present filling, in seconds. -/
def halflife (p : Mempool) : ℚ :=
  let full : ℚ := ROLLING_FEE_HALFLIFE.toInt
  if p.totalBytes < p.maxBytes / 4 then full / 4
  else if p.totalBytes < p.maxBytes / 2 then full / 2
  else full

/-- `std::max<int64_t>(std::llround(mRollingMinFeeRate), INCREMENTAL_FEE_PER_K)`. -/
def rollingFloor (p : Mempool) : Int64 := max (llround p.rollingMinFeeRate) INCREMENTAL_FEE_PER_K

/-- `GetMinFeeRateLocked`, which lets the rolling rate decay. -/
def getMinFeeRate [Doubles] (p : Mempool) (now : Int64) : Mempool × Int64 :=
  if !p.blockSinceFeeBump ∨ p.rollingMinFeeRate = 0 then (p, llround p.rollingMinFeeRate)
  else if now > p.lastRollingFeeUpdate + 10 then
    let rate := Doubles.decay p.rollingMinFeeRate (now - p.lastRollingFeeUpdate) p.halflife
    let p := { p with rollingMinFeeRate := rate, lastRollingFeeUpdate := now }
    if rate < (INCREMENTAL_FEE_PER_K.toInt : ℚ) / 2 then ({ p with rollingMinFeeRate := 0 }, 0)
    else (p, p.rollingFloor)
  else (p, p.rollingFloor)

/-! ## 3. Removal -/

/-- The part of `RemoveLocked` after the entry has been found. -/
def removeEntry (p : Mempool) (hashKey : Bytes32) (e : Entry) : Mempool :=
  { p with
    byFeeRate := p.byFeeRate.erase e.feeKey
    byTime := p.byTime.erase e.timeKey
    spends := (outpoints e.tx).foldl (fun m o => m.erase o) p.spends
    leafSpends := e.leafKeys.foldl (fun m k => m.erase k) p.leafSpends
    totalBytes := p.totalBytes - e.size
    index := p.index.erase hashKey }

def removeLocked (p : Mempool) (hashKey : Bytes32) : Mempool × Bool :=
  match p.index.lookup hashKey with
  | none => (p, false)
  | some e => (p.removeEntry hashKey e, true)

/-- The entries that spend an output of the entry `hashKey`, in the order of its outputs. -/
def children (p : Mempool) (hashKey : Bytes32) : List Bytes32 :=
  match p.index.lookup hashKey with
  | none => []
  | some e =>
    (List.range e.tx.outputs.length).filterMap fun i =>
      p.spends.lookup { txHash := e.tx.getHash, index := UInt32.ofNat i }

/-- `CollectDescendantsLocked`: a key is queued once, and every key but the first is a value of
`mSpends`, which bounds the number of turns. -/
def collectDescendants (p : Mempool) (hashKey : Bytes32) : List Bytes32 :=
  Worklist.explore p.children (p.spends.keys.length + 1) 0 [hashKey]

/-- `RemoveRecursiveLocked`, the last collected first. -/
def removeRecursive (p : Mempool) (hashKey : Bytes32) : Mempool :=
  (p.collectDescendants hashKey).reverse.foldl (fun p h => (p.removeLocked h).1) p

def parentsOf (p : Mempool) (tx : Transaction) : List Bytes32 :=
  (tx.inputs.map TxInput.prevTxHash).filter fun parent => parent ∈ p.index

def parents (p : Mempool) (hashKey : Bytes32) : List Bytes32 :=
  match p.index.lookup hashKey with
  | none => []
  | some e => p.parentsOf e.tx

/-- `CountAncestorsLocked`; only keys of `mIndex` are queued. -/
def countAncestors (p : Mempool) (tx : Transaction) : Nat :=
  (Worklist.explore p.parents p.index.keys.length 0 ((p.parentsOf tx).foldl Worklist.push [])).length
    + 1

def countDescendants (p : Mempool) (hashKey : Bytes32) : Nat :=
  (p.collectDescendants hashKey).length

/-- What `TrimLocked` does to the rolling rate before it evicts an entry of the rate `evictedRate`. -/
def bumpRate [Doubles] (p : Mempool) (now evictedRate : Int64) : Mempool :=
  let bumped := Doubles.ofInt64 (evictedRate + INCREMENTAL_FEE_PER_K)
  if bumped > p.rollingMinFeeRate then
    { p with rollingMinFeeRate := bumped, lastRollingFeeUpdate := now, blockSinceFeeBump := false }
  else p

/-- The loop of `TrimLocked`, for at most `fuel` turns. -/
def trimLoop [Doubles] (now : Int64) : Nat → Mempool → Mempool
  | 0, p => p
  | fuel + 1, p =>
    if p.totalBytes > p.maxBytes then
      match p.byFeeRate.first with
      | none => p
      | some ⟨key, hashKey⟩ => trimLoop now fuel ((p.bumpRate now key.1).removeRecursive hashKey)
    else p

/-- `TrimLocked`: a turn takes the key it looks at out of `mByFeeRate` (`trimLocked_ended`). -/
def trimLocked [Doubles] (p : Mempool) (now : Int64) : Mempool :=
  trimLoop now p.byFeeRate.keys.length p

/-- The loop of `ExpireLocked`, for at most `fuel` turns. -/
def expireLoop (cutoff : Int64) : Nat → Mempool → Mempool
  | 0, p => p
  | fuel + 1, p =>
    match p.byTime.first with
    | none => p
    | some ⟨key, hashKey⟩ =>
      if key.1 < cutoff then expireLoop cutoff fuel (p.removeLocked hashKey).1 else p

def cutoff (now : Int64) : Int64 := now - MEMPOOL_EXPIRY_SECONDS

/-- `ExpireLocked`: a turn takes the key it looks at out of `mByTime` (`expireLocked_ended`). -/
def expireLocked (p : Mempool) (now : Int64) : Mempool :=
  expireLoop (cutoff now) p.byTime.keys.length p

/-! ## 4. The public operations -/

def feeRate (fee : Int64) (size : UInt64) : Int64 :=
  if fee > Int64.maxValue / 1000 then Int64.maxValue else fee * 1000 / size.toInt64

def sizeOf (tx : Transaction) : UInt64 := UInt64.ofNat (tx.getSerializedSize true)

/-- The part of `AddTransaction` that enters a transaction into the tables. -/
def insertEntry (p : Mempool) (now : Int64) (tx : Transaction) (fee : Int64) : Mempool :=
  let seq := p.sequenceCounter + 1
  let e : Entry :=
    { tx, fee, size := sizeOf tx, feePerK := feeRate fee (sizeOf tx), seq, entryTime := now,
      leafKeys := (extractLeafKeys tx).1 }
  { p with
    sequenceCounter := seq
    index := p.index.insert tx.getHash e
    byFeeRate := p.byFeeRate.insert e.feeKey tx.getHash
    byTime := p.byTime.insert e.timeKey tx.getHash
    spends := (outpoints tx).foldl (fun m o => m.insert o tx.getHash) p.spends
    leafSpends := e.leafKeys.foldl (fun m k => m.insert k tx.getHash) p.leafSpends
    totalBytes := p.totalBytes + e.size }

/-- Does an input spend what an entry spends, or a proof use a leaf that an entry or an earlier
proof uses? -/
def conflicts (p : Mempool) (tx : Transaction) : Bool :=
  (outpoints tx).any (· ∈ p.spends) || (extractLeafKeys tx).1.any (· ∈ p.leafSpends) ||
    !(extractLeafKeys tx).1.Nodup

/-- Is one of the two chain limits exceeded? -/
def chainTooLong (p : Mempool) (tx : Transaction) : Bool :=
  p.countAncestors tx > MAX_ANCESTORS ||
    (tx.inputs.map TxInput.prevTxHash).any fun parent =>
      parent ∈ p.index && p.countDescendants parent + 1 > MAX_DESCENDANTS

/-- The checks of `AddTransaction` between `ValidateForPool` and the insertion; the rolling rate may
decay on the way. -/
def checkPolicy [Doubles] (p : Mempool) (now : Int64) (tx : Transaction) (fee : Int64) :
    Mempool × Bool :=
  if p.conflicts tx then (p, false)
  else if sizeOf tx = 0 then (p, false)
  else
    let (p, minRate) := p.getMinFeeRate now
    if feeRate fee (sizeOf tx) < minRate then (p, false) else (p, !p.chainTooLong tx)

/-- `AddTransaction` after expiry and `ValidateForPool`. -/
def admitChecked [Doubles] (p : Mempool) (now : Int64) (tx : Transaction) (fee : Int64) :
    Mempool × Bool :=
  match p.checkPolicy now tx fee with
  | (p, false) => (p, false)
  | (p, true) =>
    let p := (p.insertEntry now tx fee).trimLocked now
    (p, p.hasTransaction tx.getHash)

def addTransaction [Doubles] (p : Mempool) (now : Int64) (tx : Transaction) (fee : Int64) :
    Mempool × Outcome Bool :=
  let p := p.expireLocked now
  match p.validateForPool tx fee with
  | .error what => (p, .threw what)
  | .ok false => (p, .ret false)
  | .ok true => ((p.admitChecked now tx fee).1, .ret (p.admitChecked now tx fee).2)

def removeTransaction (p : Mempool) (txHash : Bytes32) : Mempool × Bool := p.removeLocked txHash

/-- The body of `auto it = map.find(key); if (it != end) RemoveRecursiveLocked(it->second)`, with
what `find` gave. -/
def removeConflicting (p : Mempool) : Option Bytes32 → Mempool
  | none => p
  | some conflicting => p.removeRecursive conflicting

/-- The turn of `RemoveForBlock` for one transaction. -/
def removeConfirmed (p : Mempool) (tx : Transaction) : Mempool :=
  if tx.isCoinbase then p
  else
    let p := p.removeRecursive tx.getHash
    let p := (outpoints tx).foldl (fun p o => p.removeConflicting (p.spends.lookup o)) p
    if (extractLeafKeys tx).2 then
      (extractLeafKeys tx).1.foldl (fun p k => p.removeConflicting (p.leafSpends.lookup k)) p
    else p

def removeForBlock (p : Mempool) (blockTxs : List Transaction) : Mempool :=
  { blockTxs.foldl removeConfirmed p with blockSinceFeeBump := true }

def getTransaction (p : Mempool) (txHash : Bytes32) : Option Transaction :=
  (p.index.lookup txHash).map Entry.tx

def clear (p : Mempool) : Mempool :=
  { p with
    index := ∅
    byFeeRate := ∅
    byTime := ∅
    spends := ∅
    leafSpends := ∅
    totalBytes := 0 }

/-! ## 5. Loading a saved pool -/

def takeU32 (buf : List UInt8) : Option (UInt32 × List UInt8) :=
  if buf.length < 4 then none else some (readLE32 buf, buf.drop 4)

def takeU64 (buf : List UInt8) : Option (UInt64 × List UInt8) :=
  if buf.length < 8 then none else some (readLE64 buf, buf.drop 8)

/-- One record of the file: the transaction, its time, and the rest of the buffer.  `none` stands
for the `break`s of the loop. -/
def readPersisted (buf : List UInt8) : Option ((Transaction × Int64) × List UInt8) := do
  let (txLen, buf) ← takeU32 buf
  guard (txLen ≠ 0 ∧ txLen.toNat ≤ Transaction.MAX_TX_SIZE ∧ txLen.toNat ≤ buf.length)
  let (tx, _) ← (Transaction.deserialize (buf.take txLen.toNat)).toOption
  let (_, buf) ← takeU64 (buf.drop txLen.toNat)
  let (rawTime, buf) ← takeU64 buf
  let (revealLen, buf) ← takeU32 buf
  guard (revealLen.toNat ≤ buf.length)
  return ((tx, rawTime.toInt64), buf.drop revealLen.toNat)

/-- The records the loop of `Load` gets to see. -/
def readRecords : Nat → List UInt8 → List (Transaction × Int64)
  | 0, _ => []
  | count + 1, buf =>
    match readPersisted buf with
    | none => []
    | some (record, buf) => record :: readRecords count buf

/-- The header of the file and its records; an unreadable or foreign header gives none. -/
def readFile (buf : List UInt8) : List (Transaction × Int64) :=
  match takeU32 buf with
  | none => []
  | some (version, buf) =>
    match takeU32 buf with
    | none => []
    | some (count, buf) =>
      if version ≠ PERSIST_VERSION ∨ count > PERSIST_MAX_ENTRIES then []
      else readRecords count.toNat buf

/-- `AdmitFn`: the callback sees the transaction, may work on the pool itself, and says yes with a
fee or no. -/
abbrev AdmitFn := Mempool → Transaction → Mempool × Option Int64

/-- One turn of the loop of `Load`: the pool, whether the entry was dropped, and how
`AddTransaction` ended if it was called. -/
def loadEntry [Doubles] (p : Mempool) (now clock : Int64) (admitFn : AdmitFn)
    (record : Transaction × Int64) : Mempool × Outcome Bool :=
  let (tx, entryTime) := record
  if entryTime > 0 ∧ now - entryTime > MEMPOOL_EXPIRY_SECONDS then (p, .ret false)
  else
    match admitFn p tx with
    | (p, none) => (p, .ret false)
    | (p, some fee) =>
      if p.hasTransaction tx.getHash then (p, .ret true) else p.addTransaction clock tx fee

/-- The loop of `Load`: the number of entries restored and the transactions handed to `dropped`.
`clock` is what `AddTransaction` reads for each record; an exception ends the loop. -/
def loadFrom [Doubles] (now : Int64) (admitFn : AdmitFn) :
    List (Int64 × Transaction × Int64) → Mempool → Mempool × Outcome (Nat × List Transaction)
  | [], p => (p, .ret (0, []))
  | (clock, record) :: rest, p =>
    match p.loadEntry now clock admitFn record with
    | (p, .threw what) => (p, .threw what)
    | (p, .ret restored) =>
      match loadFrom now admitFn rest p with
      | (p, .threw what) => (p, .threw what)
      | (p, .ret (n, dropped)) =>
        (p, .ret (if restored then (n + 1, dropped) else (n, record.1 :: dropped)))

/-- `Load` of a file with the content `buf`; `clock i` is the clock reading of turn `i`. -/
def load [Doubles] (p : Mempool) (buf : List UInt8) (now : Int64) (admitFn : AdmitFn)
    (clock : Nat → Int64) : Mempool × Outcome (Nat × List Transaction) :=
  loadFrom now admitFn ((readFile buf).zipIdx.map fun record => (clock record.2, record.1)) p

end Mempool

end Moneu
