/-
# Block validation

`validation/block_validation.cpp`.  `CheckBlock` and `CheckBlockReveals` need no chain state;
`CheckBlockTransactionsWithUTXO` checks every transaction against the UTXO set as it stands
BEFORE the block, with the outpoints and leaves used so far in the block as the only link between
two transactions.
-/
import Moneu.Consensus.Pow
import Moneu.Primitives.Block
import Moneu.Validation.TxValidation

namespace Moneu

inductive BlockValidationResult where
  | INVALID_HEADER
  | INVALID_MERKLE_ROOT
  | INVALID_TIMESTAMP
  | INVALID_POW
  | INVALID_COINBASE
  | INVALID_TRANSACTION
  | INVALID_TOO_LARGE
  | INVALID_DUPLICATE_TX

/-- The outcome of a block check. -/
abbrev BlockCheck := Except (Failure BlockValidationResult)

namespace BlockValidation

open NetParams

/-- `state.SetInvalid(…); return false;`. -/
def setInvalid {α : Type} (result : BlockValidationResult) (reason : String) : BlockCheck α :=
  .error (.invalid result reason)

/-- "Transaction i …" -/
def txReason {α : Type} (i : Nat) (text : String) : BlockCheck α :=
  setInvalid .INVALID_TRANSACTION ("Transaction " ++ toString i ++ text)

/-- A failed transaction check inside a block check: its reason is quoted, an exception passes
through. -/
def quote {α : Type} (i : Nat) (text : String) : TxCheck α → BlockCheck α
  | .ok a => .ok a
  | .error (.invalid _ reason) => txReason i (text ++ reason)
  | .error (.threw what) => .error (.threw what)

/-- An exception of a computation inside a check. -/
def rethrow {α : Type} : Except String α → BlockCheck α
  | .ok a => .ok a
  | .error what => .error (.threw what)

/-! ## 1. Checks without chain state -/

/-- `CheckBlockHeader` at the time `now`. -/
def checkBlockHeader (header : BlockHeader) (now : UInt64) : BlockCheck Unit :=
  if header.version = 0 then setInvalid .INVALID_HEADER "Block version is zero"
  else if header.timestamp < GENESIS_TIMESTAMP then
    setInvalid .INVALID_HEADER "Block timestamp precedes the genesis block"
  else if header.timestamp = 0 then setInvalid .INVALID_TIMESTAMP "Block timestamp is zero"
  else if header.timestamp > now + 7200 then
    setInvalid .INVALID_TIMESTAMP "Block timestamp too far in the future"
  else if header.merkleRoot.isZero then
    setInvalid .INVALID_MERKLE_ROOT "Block merkle root is zero"
  else if !checkProofOfWork header.getHash header.bits then
    setInvalid .INVALID_POW "Proof of work does not satisfy the declared target"
  else .ok ()

def checkBlockSize (block : Block) : BlockCheck Unit :=
  if block.getSerializedSize > MAX_BLOCK_SIZE then
    setInvalid .INVALID_TOO_LARGE ("Block size " ++ toString block.getSerializedSize ++
      " exceeds maximum " ++ toString MAX_BLOCK_SIZE)
  else .ok ()

def checkMerkleRoot (block : Block) : BlockCheck Unit :=
  if block.computeMerkleRoot ≠ block.header.merkleRoot then
    setInvalid .INVALID_MERKLE_ROOT "Merkle root mismatch"
  else .ok ()

/-- The loop of `CheckBlockTransactions` from transaction `i` on. -/
def checkOthersFrom : Nat → List Transaction → BlockCheck Unit
  | _, [] => .ok ()
  | i, tx :: rest =>
    if tx.isCoinbase then
      setInvalid .INVALID_COINBASE "Only first transaction can be coinbase"
    else
      match quote i " invalid: " (TxValidation.checkTransaction tx) with
      | .error e => .error e
      | .ok () => checkOthersFrom (i + 1) rest

def checkBlockTransactions (block : Block) : BlockCheck Unit :=
  match block.transactions with
  | [] => setInvalid .INVALID_TRANSACTION "Block has no transactions"
  | coinbase :: rest =>
    if !coinbase.isCoinbase then
      setInvalid .INVALID_COINBASE "First transaction must be coinbase"
    else checkOthersFrom 1 rest

/-- The loop of `CheckDuplicateTransactions` from transaction `i` on. -/
def checkDuplicatesFrom : Nat → List Bytes32 → List Transaction → BlockCheck Unit
  | _, _, [] => .ok ()
  | i, seen, tx :: rest =>
    if tx.getHash ∈ seen then
      setInvalid .INVALID_DUPLICATE_TX ("Duplicate transaction at index " ++ toString i)
    else checkDuplicatesFrom (i + 1) (tx.getHash :: seen) rest

def checkDuplicateTransactions (block : Block) : BlockCheck Unit :=
  checkDuplicatesFrom 0 [] block.transactions

def checkBlock (block : Block) (now : UInt64) : BlockCheck Unit := do
  checkBlockHeader block.header now
  checkBlockSize block
  checkMerkleRoot block
  checkBlockTransactions block
  checkDuplicateTransactions block

/-- `CheckBlockReveals`; the UTXO set and the height are not read. -/
def checkBlockReveals (block : Block) : BlockCheck Unit :=
  if block.computeLeafRoot ≠ block.header.leafRoot then
    setInvalid .INVALID_MERKLE_ROOT "Leaf root does not match the noise proofs in this block"
  else .ok ()

/-! ## 2. The check against the UTXO set -/

def minerFeesAtHeight (height : UInt32) (blockFees : UInt64) : UInt64 :=
  if height < FEES_TO_MINER_HEIGHT then 0 else blockFees

/-- The outpoint loop: `blockOutpoints.insert` must be new for every input of transaction `i`. -/
def claimOutpoints (i : Nat) : List TxInput → List OutPoint → BlockCheck (List OutPoint)
  | [], blockOutpoints => .ok blockOutpoints
  | input :: rest, blockOutpoints =>
    if input.outpoint ∈ blockOutpoints then
      txReason i " spends an output already spent within this block"
    else claimOutpoints i rest (input.outpoint :: blockOutpoints)

/-- The input total of the fee accounting, a guarded `uint64_t` sum. -/
def feeInputs (u : UTXOSet) (i : Nat) : UInt64 → List TxInput → BlockCheck UInt64
  | txIn, [] => .ok txIn
  | txIn, input :: rest =>
    match u.getCoin input.outpoint with
    | none => txReason i " input missing during fee accounting"
    | some coin =>
      let newIn := txIn + coin.value.toUInt64
      if newIn < txIn then
        setInvalid .INVALID_TRANSACTION "Input value overflow during fee accounting"
      else feeInputs u i newIn rest

/-- The output total of the fee accounting, an unguarded `uint64_t` sum. -/
def feeOutputs (outputs : List TxOutput) : UInt64 :=
  outputs.foldl (fun txOut out => txOut + out.value.toUInt64) 0

/-- What the loop carries from one transaction to the next. -/
structure BlockScope where
  blockOutpoints : List OutPoint
  blockLeaves : List NoiseLeafKey
  totalFees : UInt64

/-- One turn of the loop of `CheckBlockTransactionsWithUTXO`. -/
def checkTxInBlock [Ed25519] (u : UTXOSet) (currentHeight : UInt32) (i : Nat) (tx : Transaction)
    (scope : BlockScope) : BlockCheck BlockScope := do
  let blockOutpoints ← claimOutpoints i tx.inputs scope.blockOutpoints
  quote i " UTXO check failed: " (TxValidation.checkTransactionWithUTXO tx u currentHeight)
  let blockLeaves ← quote i " signature verification failed: "
    (TxValidation.verifyTransactionSignatures tx u scope.blockLeaves)
  let txIn ← feeInputs u i 0 tx.inputs
  let txOut := feeOutputs tx.outputs
  if txIn < txOut then txReason i " outputs exceed inputs"
  else
    let newTotalFees := scope.totalFees + (txIn - txOut)
    if newTotalFees < scope.totalFees then
      setInvalid .INVALID_TRANSACTION "Accumulated block fees out of range"
    else return { blockOutpoints, blockLeaves, totalFees := newTotalFees }

/-- The loop of `CheckBlockTransactionsWithUTXO` from transaction `i` on. -/
def checkTxsFrom [Ed25519] (u : UTXOSet) (currentHeight : UInt32) :
    Nat → List Transaction → BlockScope → BlockCheck BlockScope
  | _, [], scope => .ok scope
  | i, tx :: rest, scope =>
    match checkTxInBlock u currentHeight i tx scope with
    | .error e => .error e
    | .ok scope => checkTxsFrom u currentHeight (i + 1) rest scope

/-- The end of `CheckBlockTransactionsWithUTXO`: the coinbase may claim the subsidy and the fees
the miner gets at this height. -/
def checkCoinbaseValue (coinbase : Transaction) (currentHeight : UInt32) (totalFees : UInt64) :
    BlockCheck Unit := do
  let subsidy := getBlockSubsidy currentHeight.toUInt64
  let allowed := subsidy + minerFeesAtHeight currentHeight totalFees
  if allowed < subsidy then
    setInvalid .INVALID_COINBASE "Block reward overflow (subsidy + fees)"
  else
    let coinbaseOut ← rethrow coinbase.getValueOut
    if coinbaseOut < 0 then
      setInvalid .INVALID_COINBASE "Coinbase output value is negative"
    else if coinbaseOut.toUInt64 > allowed then
      setInvalid .INVALID_COINBASE ("Coinbase output " ++ toString coinbaseOut ++
        " exceeds allowed subsidy plus fees " ++ toString allowed)
    else .ok ()

/-- `CheckBlockTransactionsWithUTXO`.  The source reads `GetTransactions()[0]` of a block that has
passed `CheckBlock`; on an empty block, where that is undefined, the model throws. -/
def checkBlockTransactionsWithUTXO [Ed25519] (block : Block) (u : UTXOSet)
    (currentHeight : UInt32) : BlockCheck Unit :=
  match block.transactions with
  | [] => .error (.threw "no transaction 0")
  | coinbase :: rest => do
    let scope ← checkTxsFrom u currentHeight 1 rest
      { blockOutpoints := [], blockLeaves := [], totalFees := 0 }
    checkCoinbaseValue coinbase currentHeight scope.totalFees

end BlockValidation

end Moneu
