/-
# Network parameters

The constants of `chainparams.cpp` that the chain state, the validation and the storage layer
read, and the two arithmetic functions over them.  Amounts are `int64_t` and stay `Int64`;
a comparison with a `uint64_t` goes through the same cast as in the source.
-/
import Moneu.Primitives.Bytes

namespace Moneu.NetParams

/-! ## 1. Constants -/

/-- `MAINNET_MAGIC`, the first bytes of a record in a block file. -/
def MAINNET_MAGIC : List UInt8 := [0xB6, 0xFD, 0xFA, 0x84]

/-- `GENESIS_MESSAGE`: the hexadecimal text itself, not the bytes it spells. -/
def GENESIS_MESSAGE : String :=
  "54686520477561726469616e205765656b6c792031342f4175672f323032362047" ++
  "6f6e6520726f6775653a20414920747269636b73206974732074657374657273"

def GENESIS_TIMESTAMP : UInt64 := 1786724267
def GENESIS_VERSION : UInt32 := 1
def GENESIS_REWARD : Int64 := 7700000000
def GENESIS_NONCE : UInt32 := 1708084064

def GENESIS_REWARD_PUBKEYHASH : Bytes32 :=
  FixedBytes.ofNat 32 0x8fb311b4e4a09e775d0e9910e2ff55325469e8b7a0b7085bd2fd1b0c80a316c5

def COIN : Int64 := 100000000
def MAX_MONEY : Int64 := 30000000 * COIN
def INITIAL_SUBSIDY : UInt64 := 77 * 100000000
def HALVING_INTERVAL : UInt64 := 194804
def BLOCK_TIME_TARGET : UInt64 := 600

def POW_LIMIT_COMPACT : UInt32 := 0x1d00ffff
def DIFFICULTY_ADJUSTMENT_INTERVAL : Nat := 2016
def POW_TARGET_TIMESPAN : UInt64 := 2016 * 600
def POW_MIN_TIMESPAN_PERCENT : UInt64 := 80
def POW_MAX_TIMESPAN_PERCENT : UInt64 := 400
def ASERT_ANCHOR_HEIGHT : Nat := 65713
def ASERT_HALF_LIFE : Int64 := 2 * 24 * 60 * 60

def COINBASE_MATURITY : UInt32 := 50
def MAX_BLOCK_SIZE : Nat := 6 * 1024 * 1024
def MAX_OP_RETURN_SIZE : Nat := 300

def MIN_FEE_PER_BYTE : Int64 := 1
def MIN_TX_FEE : Int64 := 1000
def DUST_THRESHOLD : Int64 := 1000
def FEES_TO_MINER_HEIGHT : UInt32 := 55000

def NOISE_LEAF_COUNT : UInt32 := 1048576
def NOISE_PROOFS_PER_INPUT : UInt32 := 4

def getGenesisHash : Bytes32 :=
  FixedBytes.ofNat 32 0x00000000a03ce5faf3e74612dc86207af4b317a840cbeb0a2bb672475a04a9ea

def MAINNET_CHECKPOINTS : List (Nat × Bytes32) :=
  [(0, FixedBytes.ofNat 32 0x00000000a03ce5faf3e74612dc86207af4b317a840cbeb0a2bb672475a04a9ea),
   (1000, FixedBytes.ofNat 32 0x00000000e1ae20a687641859f30eb371c120d313c1b7461b6a98811d03293136),
   (4500, FixedBytes.ofNat 32 0x0000000086a68638d2b5c4b8a85ccdd77625c9e4a1c5f02d5b8b6e2354ea02c9),
   (10101, FixedBytes.ofNat 32 0x000000004cafc6ae22766e7c521692c4d3be10fe40773d7ee6780d40ba7f6428),
   (24000, FixedBytes.ofNat 32 0x000000000e12a3ce7dbfa619de496777ac0cf9c26a360c0d50eafb41cee88d0c),
   (43000, FixedBytes.ofNat 32 0x000000000255b50b1b459f4442a1c6555003194996d6dfc34b699e45b5dee08d)]

/-! ## 2. Money -/

def getBlockSubsidy (blockHeight : UInt64) : UInt64 :=
  let halvings := blockHeight / HALVING_INTERVAL
  if halvings ≥ 64 then 0 else INITIAL_SUBSIDY >>> halvings

def checkMoneyRange (nMoneyTotal : UInt64) : Bool := nMoneyTotal ≤ MAX_MONEY.toUInt64

theorem getGenesisHash_ne_zero : getGenesisHash ≠ FixedBytes.zero := by
  decide +kernel

end Moneu.NetParams
