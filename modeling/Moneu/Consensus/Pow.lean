/-
# Proof of work and difficulty

`consensus/pow.cpp`.  Block times are `uint64_t` and differences of them `int64_t`, as in the
source; chain heights are natural numbers.
-/
import Moneu.Crypto.ArithUint256
import Moneu.ChainParams

namespace Moneu

open ArithUint256 NetParams

/-! ## 1. Proof of work -/

def powLimit : ArithUint256 := (setCompact POW_LIMIT_COMPACT).value

def checkProofOfWork (hash : Bytes32) (bits : UInt32) : Bool :=
  let target := setCompact bits
  if target.negative || target.value = 0 || target.overflow || target.value > powLimit then false
  else if ofBytes32 hash > target.value then false
  else true

def getBlockProof (bits : UInt32) : Bytes32 :=
  let target := setCompact bits
  if target.negative || target.overflow || target.value = 0 then FixedBytes.zero
  else toBytes32 (~~~target.value / (target.value + 1) + 1)

def addChainWork (parentWork : Bytes32) (bits : UInt32) : Bytes32 :=
  toBytes32 (ofBytes32 parentWork + ofBytes32 (getBlockProof bits))

/-- `memcmp` on two buffers of one length. -/
def memcmp : List UInt8 → List UInt8 → Ordering
  | a :: as, b :: bs => if a < b then .lt else if b < a then .gt else memcmp as bs
  | _, _ => .eq

def compareWork (a b : Bytes32) : Ordering := memcmp a.data b.data

/-! ## 2. Difficulty -/

def isRetargetHeight (height : Nat) : Bool :=
  height ≠ 0 && height % DIFFICULTY_ADJUSTMENT_INTERVAL = 0

def isAsertHeight (height : Nat) : Bool := height > ASERT_ANCHOR_HEIGHT

def calculateNextWorkRequired (lastBits : UInt32) (lastBlockTime firstBlockTime : UInt64) :
    UInt32 :=
  let actualTimespan := lastBlockTime.toInt64 - firstBlockTime.toInt64
  let minTimespan := (POW_TARGET_TIMESPAN * POW_MIN_TIMESPAN_PERCENT).toInt64 / 100
  let maxTimespan := (POW_TARGET_TIMESPAN * POW_MAX_TIMESPAN_PERCENT).toInt64 / 100
  let actualTimespan := if actualTimespan < minTimespan then minTimespan else actualTimespan
  let actualTimespan := if actualTimespan > maxTimespan then maxTimespan else actualTimespan
  let last := setCompact lastBits
  if last.negative || last.overflow || last.value = 0 then POW_LIMIT_COMPACT
  else
    let bnNew := last.value * BitVec.ofNat 256 actualTimespan.toUInt64.toUInt32.toNat
    let bnNew := bnNew / BitVec.ofNat 256 POW_TARGET_TIMESPAN.toNat
    getCompact (if bnNew > powLimit then powLimit else bnNew)

/-- The factor of `CalculateASERT`: a cubic approximation of `2 ^ (frac / 65536)`. -/
def asertFactor (frac : UInt64) : UInt32 :=
  let half : UInt64 := (1 : UInt64) <<< (47 : UInt64)
  let cubic : UInt64 := (195766423245049 : UInt64) * frac + (971821376 : UInt64) * frac * frac +
    (5127 : UInt64) * frac * frac * frac + half
  let scaled : UInt64 := cubic >>> (48 : UInt64)
  (65536 + scaled : UInt64).toUInt32

def calculateASERT (refTarget : ArithUint256) (spacing timeDiff heightDiff : Int64)
    (limit : ArithUint256) (halfLife : Int64) : ArithUint256 :=
  if refTarget = 0 || refTarget > limit || heightDiff < 0 || halfLife ≤ 0 ||
      limit >>> 224 ≠ 0 then limit
  else
    let kMaxOffset : Int64 := 140737488355327
    let offset := timeDiff - spacing * (heightDiff + 1)
    let offset := if offset > kMaxOffset then kMaxOffset else offset
    let offset := if offset < -kMaxOffset then -kMaxOffset else offset
    let exponent := offset * 65536 / halfLife
    let frac := exponent.toUInt64.toUInt16.toUInt64
    let nextTarget := refTarget * BitVec.ofNat 256 (asertFactor frac).toNat
    let shifts := (exponent >>> 16).toInt - 16
    let nextTarget :=
      if shifts ≤ 0 then
        if -shifts ≥ 256 then 0 else nextTarget >>> (-shifts).toNat
      else if shifts ≥ 256 then limit
      else
        let shifted := nextTarget <<< shifts.toNat
        if shifted >>> shifts.toNat ≠ nextTarget then limit else shifted
    if nextTarget = 0 then 1 else if nextTarget > limit then limit else nextTarget

def calculateASERTBits (anchorBits : UInt32) (anchorParentTime parentTime : UInt64)
    (parentHeight : Nat) : UInt32 :=
  let ref := setCompact anchorBits
  if ref.negative || ref.overflow || ref.value = 0 || ref.value > powLimit then
    POW_LIMIT_COMPACT
  else
    let timeDiff := parentTime.toInt64 - anchorParentTime.toInt64
    let heightDiff := Int64.ofInt ((parentHeight : Int) - ASERT_ANCHOR_HEIGHT)
    getCompact (calculateASERT ref.value BLOCK_TIME_TARGET.toInt64 timeDiff heightDiff powLimit
      ASERT_HALF_LIFE)

end Moneu
