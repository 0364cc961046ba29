/-
# Transactions

`primitives/transaction.cpp`.  Inputs and outputs can only be added through `AddInput`,
`AddOutput` and `Deserialize`, which keep the vectors within `MAX_INPUTS` and `MAX_OUTPUTS`;
the structure carries both bounds.  The hash covers the serialization WITHOUT the noise proofs.

Signature verification is a parameter (`Ed25519`): nothing below depends on which signatures a
key accepts.
-/
import Moneu.Crypto.Sha256
import Moneu.ChainParams
import Moneu.Lib.Decoder
import Moneu.Primitives.Script

namespace Moneu

open NetParams

/-- `SecretKey::VerifySimple`: does the key accept the signature of the message? -/
class Ed25519 where
  verifySimple : (pubkey : Bytes32) → (signature : Bytes64) → (msg : List UInt8) → Bool

/-! ## 1. The data -/

structure TxInput where
  prevTxHash : Bytes32
  outputIndex : UInt32
  pubkey : Bytes32
  signature : Bytes64
  kps : Bytes32
  noiseProof : List UInt8
  deriving DecidableEq

structure TxOutput where
  value : Int64
  scriptPubKey : Script
  deriving DecidableEq

namespace Transaction

def MAX_TX_SIZE : Nat := 100000

def MAX_INPUTS : Nat := 1000

def MAX_OUTPUTS : Nat := 1000

theorem one_le_MAX_INPUTS : 1 ≤ MAX_INPUTS := by decide

theorem one_le_MAX_OUTPUTS : 1 ≤ MAX_OUTPUTS := by decide

end Transaction

/-- `Transaction`, without the cached hash. -/
structure Transaction where
  version : UInt32
  inputs : List TxInput
  outputs : List TxOutput
  locktime : UInt64
  inputs_le : inputs.length ≤ Transaction.MAX_INPUTS
  outputs_le : outputs.length ≤ Transaction.MAX_OUTPUTS
  deriving DecidableEq

/-! ## 2. Serialization -/

def writeCompactSize (value : Nat) : List UInt8 :=
  if value < 253 then [UInt8.ofNat value]
  else if value ≤ 0xffff then 253 :: leBytes 2 value
  else if value ≤ 0xffffffff then 254 :: leBytes 4 value
  else 255 :: leBytes 8 value

def compactSizeLen (value : Nat) : Nat :=
  if value < 253 then 1
  else if value ≤ 0xffff then 3
  else if value ≤ 0xffffffff then 5
  else 9

/-- `ReadCompactSize` after its first byte. -/
def readCompactSizeRest (first : UInt8) : Decoder Nat :=
  if first < 253 then return first.toNat
  else if first = 253 then do
    Decoder.require 2 "Insufficient data for CompactSize"
    let bytes ← Decoder.vec 2
    return leValue bytes
  else if first = 254 then do
    Decoder.require 4 "Insufficient data for CompactSize"
    let v ← Decoder.le32
    return v.toNat
  else do
    Decoder.require 8 "Insufficient data for CompactSize"
    let v ← Decoder.le64
    return v.toNat

def readCompactSize : Decoder Nat := do
  Decoder.require 1 "Insufficient data for CompactSize"
  let first ← Decoder.u8
  readCompactSizeRest first

namespace TxInput

/-- `TxInput::IsValid`: a coinbase input, or one that names a key. -/
def isValid (input : TxInput) : Bool :=
  (input.prevTxHash.isZero && input.outputIndex == 0xFFFFFFFF) || !input.pubkey.isZero

def getSerializedSize (withNoiseProof : Bool) (input : TxInput) : Nat :=
  let base := 32 + 4 + 32 + 64 + 32
  if withNoiseProof then base + (4 + input.noiseProof.length) else base

def serialize (withNoiseProof : Bool) (input : TxInput) : List UInt8 :=
  input.prevTxHash.data ++ (writeLE32 input.outputIndex ++ (input.pubkey.data ++
    (input.signature.data ++ (input.kps.data ++
      if withNoiseProof then
        writeLE32 (UInt32.ofNat input.noiseProof.length) ++ input.noiseProof
      else []))))

def deserialize : Decoder TxInput := do
  Decoder.require 168 "Insufficient data for TxInput"
  let prevTxHash ← Decoder.array 32
  let outputIndex ← Decoder.le32
  let pubkey ← Decoder.array 32
  let signature ← Decoder.array 64
  let kps ← Decoder.array 32
  let proofLen ← Decoder.le32
  Decoder.throwIf (proofLen.toNat > Transaction.MAX_TX_SIZE) "NoiseProof length implausible"
  Decoder.require proofLen.toNat "Insufficient data for TxInput noise proof"
  let noiseProof ← Decoder.vec proofLen.toNat
  return { prevTxHash, outputIndex, pubkey, signature, kps, noiseProof }

end TxInput

namespace TxOutput

/-- `TxOutput(value, pubkeyHash)`: the standard payment script. -/
def ofPubkeyHash (value : Int64) (pubkeyHash : Bytes32) : TxOutput :=
  { value, scriptPubKey := Script.createPayToPubkeyHash pubkeyHash }

def getPubkeyHash (output : TxOutput) : Bytes32 :=
  (Script.extractPubkeyHash output.scriptPubKey).getD FixedBytes.zero

def isUnspendable (output : TxOutput) : Bool := Script.isUnspendable output.scriptPubKey

def isValid (output : TxOutput) : Bool :=
  !(output.value < 0) && !output.scriptPubKey.isEmpty && output.scriptPubKey.length ≤ MAX_SCRIPT_SIZE

def isDust (output : TxOutput) : Bool :=
  !output.isUnspendable && (output.value < DUST_THRESHOLD && output.value > 0)

def getSerializedSize (output : TxOutput) : Nat :=
  8 + compactSizeLen output.scriptPubKey.length + output.scriptPubKey.length

def serialize (output : TxOutput) : List UInt8 :=
  writeLE64 output.value.toUInt64 ++
    (writeCompactSize output.scriptPubKey.length ++ output.scriptPubKey)

def deserialize : Decoder TxOutput := do
  Decoder.require 8 "Insufficient data for TxOutput"
  let value ← Decoder.le64
  Decoder.throwIf (value.toInt64 < 0) "Negative output value"
  let scriptLen ← readCompactSize
  Decoder.throwIf (scriptLen > MAX_SCRIPT_SIZE) "scriptPubKey exceeds maximum script size"
  Decoder.require scriptLen "Insufficient data for scriptPubKey"
  let scriptPubKey ← Decoder.vec scriptLen
  return { value := value.toInt64, scriptPubKey }

end TxOutput

namespace Transaction

def getSerializedSize (withNoiseProof : Bool) (tx : Transaction) : Nat :=
  4 + 4 + (tx.inputs.map (TxInput.getSerializedSize withNoiseProof)).sum +
    4 + (tx.outputs.map TxOutput.getSerializedSize).sum + 8

def serialize (withNoiseProof : Bool) (tx : Transaction) : List UInt8 :=
  writeLE32 tx.version ++ (writeLE32 (UInt32.ofNat tx.inputs.length) ++
    (tx.inputs.flatMap (TxInput.serialize withNoiseProof) ++
      (writeLE32 (UInt32.ofNat tx.outputs.length) ++
        (tx.outputs.flatMap TxOutput.serialize ++ writeLE64 tx.locktime))))

/-- The vectors a `Transaction` may hold: `AddInput` and `AddOutput` throw beyond them. -/
def build (version : UInt32) (inputs : List TxInput) (outputs : List TxOutput)
    (locktime : UInt64) : Except String Transaction :=
  if hin : inputs.length ≤ MAX_INPUTS then
    if hout : outputs.length ≤ MAX_OUTPUTS then
      .ok { version, inputs, outputs, locktime, inputs_le := hin, outputs_le := hout }
    else .error "Too many outputs"
  else .error "Too many inputs"

theorem build_ok {version : UInt32} {inputs : List TxInput} {outputs : List TxOutput}
    {locktime : UInt64} {tx : Transaction} (h : build version inputs outputs locktime = .ok tx) :
    tx.inputs = inputs ∧ tx.outputs = outputs := by
  unfold build at h
  split at h
  · split at h
    · cases h
      exact ⟨rfl, rfl⟩
    · cases h
  · cases h

/-- `Transaction::Deserialize`; bytes after the lock time are ignored. -/
def deserialize : Decoder Transaction := do
  Decoder.require 20 "Transaction data too short"
  let version ← Decoder.le32
  let inputCount ← Decoder.le32
  Decoder.throwIf (inputCount.toNat > MAX_INPUTS) "Too many inputs"
  let inputs ← Decoder.replicate TxInput.deserialize inputCount.toNat
  Decoder.require 4 "Insufficient data for output count"
  let outputCount ← Decoder.le32
  Decoder.throwIf (outputCount.toNat > MAX_OUTPUTS) "Too many outputs"
  let outputs ← Decoder.replicate TxOutput.deserialize outputCount.toNat
  Decoder.require 8 "Insufficient data for locktime"
  let locktime ← Decoder.le64
  Decoder.lift (build version inputs outputs locktime)

/-! ## 3. Hashes, values and signatures -/

def getHash (tx : Transaction) : Bytes32 := sha256 (tx.serialize false)

def isCoinbase (tx : Transaction) : Bool :=
  match tx.inputs with
  | [input] => input.prevTxHash.isZero && input.outputIndex == 0xFFFFFFFF
  | _ => false

/-- The loop of `GetValueOut`: the running total never leaves the `int64_t` range. -/
def valueOutFrom (total : Int64) : List TxOutput → Except String Int64
  | [] => .ok total
  | output :: rest =>
    if output.value < 0 then .error "Negative output value"
    else if total > Int64.maxValue - output.value then .error "Output value overflow"
    else valueOutFrom (total + output.value) rest

def getValueOut (tx : Transaction) : Except String Int64 := valueOutFrom 0 tx.outputs

/-- `Transaction::IsValid`; the size and value checks come after the inputs have been counted. -/
def isValid (tx : Transaction) : Except String Bool :=
  if tx.inputs.isEmpty || tx.outputs.isEmpty then .ok false
  else if tx.getSerializedSize true > MAX_TX_SIZE then .ok false
  else if !tx.inputs.all TxInput.isValid then .ok false
  else if !tx.outputs.all fun output => output.isValid && !(output.isDust && !tx.isCoinbase) then
    .ok false
  else tx.getValueOut.map fun valueOut => 0 ≤ valueOut

/-- The bytes hashed by `GetSignatureHash`: signatures are zeroed, proofs left out. -/
def signaturePreimage (tx : Transaction) (inputIndex : Nat) : List UInt8 :=
  writeLE32 tx.version ++ (writeLE32 (UInt32.ofNat tx.inputs.length) ++
    (tx.inputs.flatMap (fun input => input.prevTxHash.data ++ (writeLE32 input.outputIndex ++
        (input.pubkey.data ++ ((FixedBytes.zero : Bytes64).data ++ input.kps.data)))) ++
      (writeLE32 (UInt32.ofNat tx.outputs.length) ++
        (tx.outputs.flatMap TxOutput.serialize ++
          (writeLE64 tx.locktime ++ writeLE32 (UInt32.ofNat inputIndex))))))

def getSignatureHash (tx : Transaction) (inputIndex : Nat) : Bytes32 :=
  sha256 (tx.signaturePreimage inputIndex)

def noiseBoundHash (pubkey kps : Bytes32) : Bytes32 := sha256 (pubkey.data ++ kps.data)

/-- `Transaction::VerifySignature` for the input `input` at position `inputIndex`. -/
def verifySignature [Ed25519] (tx : Transaction) (inputIndex : Nat) (input : TxInput)
    (prevOutput : TxOutput) : Bool :=
  let sigHash := tx.getSignatureHash inputIndex
  if noiseBoundHash input.pubkey input.kps ≠ prevOutput.getPubkeyHash then false
  else Ed25519.verifySimple input.pubkey input.signature sigHash.data

end Transaction

end Moneu
