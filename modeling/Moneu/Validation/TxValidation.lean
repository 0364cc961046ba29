/-
# Transaction validation

`validation/tx_validation.cpp`.  A check succeeds, or fails with the result code and the reason
the source puts into the validation state, or throws.
-/
import Moneu.Storage.UTXOSet

namespace Moneu

/-- How a check ends that does not succeed: `state.SetInvalid(result, reason)` or an exception. -/
inductive Failure (R : Type) where
  | invalid (result : R) (reason : String)
  | threw (what : String)

inductive TxValidationResult where
  | INVALID_NEGATIVE_VALUE
  | INVALID_MONEY_RANGE
  | INVALID_EMPTY_OUTPUTS
  | INVALID_SCRIPT
  | INVALID_DUST_OUTPUT
  | INVALID_VALUE_OVERFLOW
  | INVALID_EMPTY_INPUTS
  | INVALID_DOUBLE_SPEND
  | INVALID_TOO_LARGE
  | INVALID_COINBASE_SIZE
  | INVALID_MISSING_INPUT
  | INVALID_COINBASE_MATURITY
  | INVALID_INSUFFICIENT_FEE
  | INVALID_BAD_SIGNATURE
  | INVALID_NOISE_PROOF

/-- The outcome of a transaction check. -/
abbrev TxCheck := Except (Failure TxValidationResult)

namespace TxValidation

open NetParams

/-- `state.SetInvalid(…); return false;`. -/
def setInvalid {α : Type} (result : TxValidationResult) (reason : String) : TxCheck α :=
  .error (.invalid result reason)

/-! ## 1. Checks without chain state -/

def safeAdd (a b : Int64) : Option Int64 :=
  if b > 0 ∧ a > Int64.maxValue - b then none
  else if b < 0 ∧ a < Int64.minValue - b then none
  else some (a + b)

def checkMoneyRange (value : Int64) : TxCheck Unit :=
  if value < 0 then setInvalid .INVALID_NEGATIVE_VALUE "Transaction output value is negative"
  else if value > MAX_MONEY then
    setInvalid .INVALID_MONEY_RANGE "Transaction output value exceeds MAX_MONEY"
  else .ok ()

/-- The script part of `CheckTxOutputs`, which yields the script class. -/
def checkScript (i : Nat) (script : Script) : TxCheck TxoutType :=
  match Script.solver script with
  | (.PUBKEYHASH, _) => .ok .PUBKEYHASH
  | (.NULL_DATA, solutions) =>
    if (solutions.headD []).length > MAX_OP_RETURN_SIZE then
      setInvalid .INVALID_SCRIPT ("OP_RETURN payload exceeds " ++ toString MAX_OP_RETURN_SIZE ++
        " bytes at index " ++ toString i)
    else .ok .NULL_DATA
  | (.NONSTANDARD, _) =>
    setInvalid .INVALID_SCRIPT ("Nonstandard scriptPubKey at index " ++ toString i)

/-- The loop of `CheckTxOutputs` from output `i` on, with the running total. -/
def checkOutputsFrom (isCoinbase : Bool) : Nat → Int64 → List TxOutput → TxCheck Unit
  | _, _, [] => .ok ()
  | i, totalOut, out :: rest => do
    checkMoneyRange out.value
    let type ← checkScript i out.scriptPubKey
    if !isCoinbase && type = .PUBKEYHASH && out.value < DUST_THRESHOLD then
      setInvalid .INVALID_DUST_OUTPUT "Transaction output below dust threshold"
    match safeAdd totalOut out.value with
    | none => setInvalid .INVALID_VALUE_OVERFLOW "Transaction output value overflow"
    | some newTotal =>
      if newTotal > MAX_MONEY then
        setInvalid .INVALID_MONEY_RANGE "Total output value exceeds MAX_MONEY"
      else checkOutputsFrom isCoinbase (i + 1) newTotal rest

def checkTxOutputs (tx : Transaction) : TxCheck Unit :=
  if tx.outputs.isEmpty then setInvalid .INVALID_EMPTY_OUTPUTS "Transaction has no outputs"
  else checkOutputsFrom tx.isCoinbase 0 0 tx.outputs

def checkTxInputs (tx : Transaction) : TxCheck Unit :=
  if tx.inputs.isEmpty then setInvalid .INVALID_EMPTY_INPUTS "Transaction has no inputs"
  else if tx.isCoinbase then .ok ()
  else if ¬ (tx.inputs.map TxInput.outpoint).Nodup then
    setInvalid .INVALID_DOUBLE_SPEND "Duplicate input - transaction spends the same output twice"
  else if tx.inputs.any fun input => input.prevTxHash.isZero then
    setInvalid .INVALID_EMPTY_INPUTS "Non-coinbase input has null prevout hash"
  else .ok ()

def checkTxSize (tx : Transaction) : TxCheck Unit :=
  if tx.getSerializedSize true > Transaction.MAX_TX_SIZE then
    setInvalid .INVALID_TOO_LARGE "Transaction exceeds maximum size"
  else .ok ()

/-- A running total of outputs that fails only on `int64_t` overflow. -/
def sumOutputs (reason : String) : Int64 → List TxOutput → TxCheck Int64
  | total, [] => .ok total
  | total, out :: rest =>
    match safeAdd total out.value with
    | none => setInvalid .INVALID_VALUE_OVERFLOW reason
    | some newTotal => sumOutputs reason newTotal rest

def checkCoinbase (tx : Transaction) : TxCheck Unit :=
  if !tx.isCoinbase then .ok ()
  else if tx.inputs.length ≠ 1 then
    setInvalid .INVALID_COINBASE_SIZE "Coinbase must have exactly one input"
  else if tx.outputs.isEmpty then setInvalid .INVALID_EMPTY_OUTPUTS "Coinbase has no outputs"
  else (sumOutputs "Coinbase output value overflow" 0 tx.outputs).map fun _ => ()

def checkTransaction (tx : Transaction) : TxCheck Unit := do
  checkTxSize tx
  checkTxInputs tx
  checkTxOutputs tx
  if tx.isCoinbase then checkCoinbase tx

def getMinimumFee (tx : Transaction) : Int64 :=
  let sizeAsInt := Int64.ofNat (tx.getSerializedSize true)
  let sizeFee :=
    if MIN_FEE_PER_BYTE ≠ 0 ∧ sizeAsInt > Int64.maxValue / MIN_FEE_PER_BYTE then Int64.maxValue
    else sizeAsInt * MIN_FEE_PER_BYTE
  if sizeFee > MIN_TX_FEE then sizeFee else MIN_TX_FEE

/-! ## 2. Checks against the UTXO set -/

/-- The input loop of `CheckTransactionWithUTXO` with its running total. -/
def sumInputs (u : UTXOSet) (currentHeight : UInt32) : Int64 → List TxInput → TxCheck Int64
  | totalIn, [] => .ok totalIn
  | totalIn, input :: rest =>
    match u.getCoin input.outpoint with
    | none => setInvalid .INVALID_MISSING_INPUT "Input not found in UTXO set"
    | some coin =>
      if coin.isSpent then
        setInvalid .INVALID_DOUBLE_SPEND "Input already spent - double spend detected"
      else if coin.isCoinbase ∧ currentHeight < coin.height + COINBASE_MATURITY then
        setInvalid .INVALID_COINBASE_MATURITY "Coinbase output not yet mature"
      else do
        checkMoneyRange coin.value
        match safeAdd totalIn coin.value with
        | none => setInvalid .INVALID_VALUE_OVERFLOW "Input value overflow"
        | some newTotal =>
          if newTotal > MAX_MONEY then
            setInvalid .INVALID_MONEY_RANGE "Total input value exceeds MAX_MONEY"
          else sumInputs u currentHeight newTotal rest

def checkTransactionWithUTXO (tx : Transaction) (u : UTXOSet) (currentHeight : UInt32) :
    TxCheck Unit := do
  checkTransaction tx
  if tx.isCoinbase then .ok ()
  else
    let totalIn ← sumInputs u currentHeight 0 tx.inputs
    let totalOut ← sumOutputs "Output value overflow" 0 tx.outputs
    if totalIn < totalOut then
      setInvalid .INVALID_INSUFFICIENT_FEE "Input value less than output value"
    else
      let fee := totalIn - totalOut
      let minRequired := getMinimumFee tx
      if fee < minRequired then
        setInvalid .INVALID_INSUFFICIENT_FEE ("Transaction fee " ++ toString fee ++
          " below minimum " ++ toString minRequired ++ " for size " ++
          toString (tx.getSerializedSize true))
      else .ok ()

/-- "Input i …" -/
def inputReason {α : Type} (result : TxValidationResult) (i : Nat) (text : String) : TxCheck α :=
  setInvalid result ("Input " ++ toString i ++ text)

/-- The proof loop of one input: one proof per wanted leaf.  It returns the bytes left over and
the leaves claimed so far (`leafScope`). -/
def checkProofs (u : UTXOSet) (kps txHash : Bytes32) (i : Nat) :
    List UInt32 → List UInt8 → List NoiseLeafKey → TxCheck (List UInt8 × List NoiseLeafKey)
  | [], bytes, leafScope => .ok (bytes, leafScope)
  | wanted :: rest, bytes, leafScope =>
    match NoiseProof.deserialize bytes with
    | .error _ => inputReason .INVALID_NOISE_PROOF i " has a malformed noise proof"
    | .ok (proof, bytes) =>
      let key : NoiseLeafKey := { kps, leafIndex := proof.leafIndex }
      if proof.leafIndex ≠ wanted then
        inputReason .INVALID_NOISE_PROOF i " carries a leaf the transaction does not call for"
      else if !verifyProof kps txHash proof NOISE_LEAF_COUNT then
        inputReason .INVALID_NOISE_PROOF i " has an invalid noise proof"
      else if key ∈ leafScope then
        inputReason .INVALID_NOISE_PROOF i " reuses a leaf already claimed here"
      else if u.isNoiseLeafSpent key then
        inputReason .INVALID_NOISE_PROOF i " uses a leaf that is already spent"
      else checkProofs u kps txHash i rest bytes (key :: leafScope)

/-- One turn of the loop of `VerifyTransactionSignatures`. -/
def verifyInput [Ed25519] (tx : Transaction) (u : UTXOSet) (i : Nat) (input : TxInput)
    (leafScope : List NoiseLeafKey) : TxCheck (List NoiseLeafKey) :=
  match u.getCoin input.outpoint with
  | none => setInvalid .INVALID_MISSING_INPUT "Input not found during signature verification"
  | some coin =>
    if !tx.verifySignature i input (TxOutput.ofPubkeyHash coin.value coin.pubkeyHash) then
      setInvalid .INVALID_BAD_SIGNATURE ("Invalid signature for input " ++ toString i)
    else if input.noiseProof.isEmpty then
      inputReason .INVALID_NOISE_PROOF i " carries no noise proof"
    else
      let wanted := deriveLeafIndices tx.getHash input.kps (UInt32.ofNat i)
        NOISE_PROOFS_PER_INPUT NOISE_LEAF_COUNT
      if ¬ wanted.Nodup then
        inputReason .INVALID_NOISE_PROOF i " derives a repeated leaf index"
      else
        match checkProofs u input.kps tx.getHash i wanted input.noiseProof leafScope with
        | .error e => .error e
        | .ok (bytes, leafScope) =>
          if !bytes.isEmpty then
            inputReason .INVALID_NOISE_PROOF i " carries trailing bytes after its noise proofs"
          else if input.kps.isZero then inputReason .INVALID_NOISE_PROOF i " has no KPS"
          else .ok leafScope

/-- The loop of `VerifyTransactionSignatures` from input `i` on. -/
def verifyInputsFrom [Ed25519] (tx : Transaction) (u : UTXOSet) :
    Nat → List TxInput → List NoiseLeafKey → TxCheck (List NoiseLeafKey)
  | _, [], leafScope => .ok leafScope
  | i, input :: rest, leafScope =>
    match verifyInput tx u i input leafScope with
    | .error e => .error e
    | .ok leafScope => verifyInputsFrom tx u (i + 1) rest leafScope

/-- `VerifyTransactionSignatures`: the leaves claimed so far, with those of this transaction. -/
def verifyTransactionSignatures [Ed25519] (tx : Transaction) (u : UTXOSet)
    (usedLeaves : List NoiseLeafKey) : TxCheck (List NoiseLeafKey) :=
  if tx.isCoinbase then .ok usedLeaves else verifyInputsFrom tx u 0 tx.inputs usedLeaves

end TxValidation

end Moneu
