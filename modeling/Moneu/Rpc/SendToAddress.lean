/-
# `sendtoaddress`

The handler of `rpc/rpc_server.cpp` that builds, signs and sends a payment.  It holds no lock of its
own: between any two calls of the wallet, the chain or the pool other threads may run.  So a running
call is a value of its own (`Call`), its program counter is a `Phase`, and `turn` takes it across the
next call that takes a lock.

The parameters arrive parsed (`SendRequest`); that the JSON could not be read ends the call before it
begins.  The reply and the broadcast are left out.  An exception of `CreateTransaction` that is not a
`WalletError` is reported as if it were one.
-/
import Moneu.Node.Admission

namespace Moneu

open NetParams

/-! ## 1. The fee a size demands -/

def noiseProofBytesPerInput : Nat :=
  let depth := Nat.log2 NOISE_LEAF_COUNT.toNat
  let proof := 4 + 32 + 32 + 4 + depth * 32 + depth
  4 + proof * NOISE_PROOFS_PER_INPUT.toNat

def signedSizeOf (tx : Transaction) : Nat :=
  tx.getSerializedSize true + tx.inputs.length * noiseProofBytesPerInput

def requiredFeeForSize (size : Nat) : Int64 :=
  let perByte := Int64.ofNat size * MIN_FEE_PER_BYTE
  if perByte > MIN_TX_FEE then perByte else MIN_TX_FEE

/-! ## 2. A call -/

def formatAmount (units : Int64) : String :=
  let magnitude := units.toInt.natAbs
  let digits := toString (magnitude % COIN.toInt.natAbs)
  (if units < 0 then "-" else "") ++ toString (magnitude / COIN.toInt.natAbs) ++ "." ++
    String.ofList (List.replicate (8 - digits.length) '0') ++ digits

/-- The codes of `RPCError` that the handler uses. -/
inductive RpcCode where
  | RPC_INVALID_PARAMS
  | RPC_VERIFY_ERROR
  | RPC_VERIFY_REJECTED
  | RPC_MISC_ERROR

/-- What a handler throws: an `RPCError`, or an exception of a function it calls. -/
inductive Thrown where
  | rpc (code : RpcCode) (message : String)
  | other (what : String)

/-- The parameters of a call. -/
structure SendRequest where
  toAddress : List UInt8
  amount : Int64
  fee : Option Int64
  message : List UInt8

/-- The checks before the pool is looked at. -/
def SendRequest.check (r : SendRequest) (w : WalletManager) : Except Thrown Unit :=
  if !w.initialized then
    .error (.rpc .RPC_MISC_ERROR "Wallet not loaded. Use createwallet or loadwallet first.")
  else if w.locked then
    .error (.rpc .RPC_MISC_ERROR "Wallet is locked. Use walletunlock first.")
  else if !w.noiseLoaded then
    .error (.rpc .RPC_MISC_ERROR ("Noise file not loaded. Unlock with the correct " ++
      "passphrase, or run makenoise first."))
  else if r.toAddress.isEmpty ∨ r.toAddress.length > 64 then
    .error (.rpc .RPC_INVALID_PARAMS "Invalid address")
  else if r.amount ≤ 0 then .error (.rpc .RPC_INVALID_PARAMS "Amount must be positive")
  else if r.fee.any (· < 0) then .error (.rpc .RPC_INVALID_PARAMS "Fee must not be negative")
  else if r.fee.any (· > COIN) then
    .error (.rpc .RPC_INVALID_PARAMS ("Fee of " ++ formatAmount (r.fee.getD 0) ++ " looks like a " ++
      "mistake. A whole number is read as coins, not " ++
      "units. For a fee of 3500 units write 0.00003500"))
  else if r.message.length > MAX_OP_RETURN_SIZE then
    .error (.rpc .RPC_INVALID_PARAMS ("Message is " ++ toString r.message.length ++
      " bytes; the limit is " ++ toString MAX_OP_RETURN_SIZE))
  else .ok ()

/-- Where a call stands; `tx` is what the variable of that name holds. -/
inductive Phase where
  /-- `Snapshot` is next. -/
  | begun
  /-- `GetHeight` for the first `CreateTransaction` is next. -/
  | informed
  /-- The first `CreateTransaction` is next. -/
  | aimed (height : UInt32)
  /-- The fee is measured next. -/
  | created (tx : Transaction)
  /-- What the first attempt held is released; `GetHeight` for the second one is next. -/
  | released (tx : Transaction)
  /-- The second `CreateTransaction` is next. -/
  | reaimed (tx : Transaction) (height : UInt32)
  /-- `SignTransaction` is next. -/
  | settled (tx : Transaction)
  /-- `ValidateAndComputeFee` is next. -/
  | signed (tx : Transaction)
  /-- `AddTransaction` is next. -/
  | checked (tx : Transaction) (actualFee : Int64)
  /-- `ReleaseOutpointsOf` in the `catch` is next. -/
  | failing (tx : Transaction) (error : Thrown)

/-- A running call with its variables. -/
structure Call where
  request : SendRequest
  fee : Int64
  poolTxs : List Transaction
  phase : Phase

/-- A call whose parameters passed the checks. -/
def Call.new (r : SendRequest) : Call :=
  { request := r, fee := r.fee.getD MIN_TX_FEE, poolTxs := [], phase := .begun }

/-- What a turn makes of a call. -/
inductive Turned where
  | goes (c : Call)
  | returns (tx : Transaction)
  | throws (error : Thrown)

/-- The transactions of `Snapshot`, the oldest first. -/
def Mempool.snapshot (p : Mempool) : List Transaction :=
  ((p.index.entries.map fun slot => slot.2).insertionSort fun a b => a.entryTime ≤ b.entryTime).map
    Entry.tx

/-! ## 3. The turns -/

namespace MoneuNode

section Settle

variable [WalletCrypto]

/-- The fee of the first attempt is measured against the size. -/
def settle (n : MoneuNode) (c : Call) (tx : Transaction) : MoneuNode × Turned :=
  let required := requiredFeeForSize (signedSizeOf tx)
  match c.request.fee with
  | none =>
    if required > c.fee then
      ({ n with wallet := n.wallet.releaseOutpointsFor tx.getHash },
        .goes { c with fee := required, phase := .released tx })
    else (n, .goes { c with phase := .settled tx })
  | some _ =>
    if c.fee < required then
      ({ n with wallet := n.wallet.releaseOutpointsFor tx.getHash },
        .goes { c with phase := .failing tx (.rpc .RPC_INVALID_PARAMS ("Fee " ++ toString c.fee ++
          " is below the minimum " ++ toString required ++
          " this transfer requires; omit the fee to have it set from the size")) })
    else (n, .goes { c with phase := .settled tx })

/-- `CreateTransaction` with the variables of the call. -/
def create (n : MoneuNode) (c : Call) (height : UInt32) : WalletManager × Outcome Transaction :=
  n.wallet.createTransaction c.request.toAddress c.request.amount c.fee n.chainState.utxoSet height
    c.poolTxs c.request.message

/-- "CreateTransaction failed: …" -/
def createFailed (what : String) : Thrown :=
  .rpc .RPC_MISC_ERROR ("CreateTransaction failed: " ++ what)

/-- The first `CreateTransaction`, outside the `try`. -/
def attempt (n : MoneuNode) (c : Call) (height : UInt32) : MoneuNode × Turned :=
  match n.create c height with
  | (w, .threw what) => ({ n with wallet := w }, .throws (createFailed what))
  | (w, .ret tx) => ({ n with wallet := w }, .goes { c with phase := .created tx })

/-- The second one: when it throws, `tx` is still the transaction of the first. -/
def attemptAgain (n : MoneuNode) (c : Call) (tx : Transaction) (height : UInt32) :
    MoneuNode × Turned :=
  match n.create c height with
  | (w, .threw what) =>
    ({ n with wallet := w }, .goes { c with phase := .failing tx (createFailed what) })
  | (w, .ret tx) => ({ n with wallet := w }, .goes { c with phase := .settled tx })

/-- `SignTransaction`; `saves` says whether the wallet file can be written. -/
def sign (n : MoneuNode) (c : Call) (tx : Transaction) (saves : Bool) : MoneuNode × Turned :=
  match n.wallet.signTransaction tx saves with
  | (w, tx, .ret true) => ({ n with wallet := w }, .goes { c with phase := .signed tx })
  | (w, tx, .ret false) =>
    ({ n with wallet := w }, .goes { c with phase := .failing tx (.rpc .RPC_VERIFY_ERROR
      "Failed to sign transaction (missing key for an input)") })
  | (w, tx, .threw what) =>
    ({ n with wallet := w }, .goes { c with phase := .failing tx (.other what) })

end Settle

def verify [Ed25519] (n : MoneuNode) (c : Call) (tx : Transaction) : Turned :=
  match validateAndComputeFee n.chainState tx with
  | .ok actualFee => .goes { c with phase := .checked tx actualFee }
  | .error (.invalid _ reason) =>
    .goes { c with phase := .failing tx (.rpc .RPC_VERIFY_REJECTED
      ("Transaction invalid: " ++ reason)) }
  | .error (.threw what) => .goes { c with phase := .failing tx (.other what) }

/-- `AddTransaction` at the time `now`. -/
def submit [Doubles] (n : MoneuNode) (c : Call) (tx : Transaction) (actualFee now : Int64) :
    MoneuNode × Turned :=
  match n.mempool.addTransaction now tx actualFee with
  | (p, .ret true) => ({ n with mempool := p }, .returns tx)
  | (p, .ret false) =>
    ({ n with mempool := p }, .goes { c with phase := .failing tx (.rpc .RPC_VERIFY_REJECTED
      ("Transaction rejected by mempool (duplicate, " ++
        "conflict, or fee rate below the rolling minimum)")) })
  | (p, .threw what) =>
    ({ n with mempool := p }, .goes { c with phase := .failing tx (.other what) })

def getHeight (n : MoneuNode) : UInt32 := UInt32.ofNat n.chainState.bestChain.height

/-- The next turn of a call. -/
def turn [Ed25519] [Doubles] [WalletCrypto] (n : MoneuNode) (c : Call) (saves : Bool)
    (now : Int64) : MoneuNode × Turned :=
  match c.phase with
  | .begun => (n, .goes { c with poolTxs := n.mempool.snapshot, phase := .informed })
  | .informed => (n, .goes { c with phase := .aimed n.getHeight })
  | .aimed height => n.attempt c height
  | .created tx => n.settle c tx
  | .released tx => (n, .goes { c with phase := .reaimed tx n.getHeight })
  | .reaimed tx height => n.attemptAgain c tx height
  | .settled tx => n.sign c tx saves
  | .signed tx => (n, n.verify c tx)
  | .checked tx actualFee => n.submit c tx actualFee now
  | .failing tx error => ({ n with wallet := n.wallet.releaseOutpointsOf tx }, .throws error)

end MoneuNode

end Moneu
