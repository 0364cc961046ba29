/-
# Between the chain and the pool

The functions of `main.cpp` that keep the memory pool in step with the chain: a transaction is admitted
(`AcceptToMempool`), and after blocks have come and gone the pool and the wallet are told
(`SyncMempoolWithChain`).

`ValidateAndComputeFee` of `rpc/rpc_server.cpp` makes the checks of `AcceptToMempool` in the same order,
with texts for the caller where the other writes to the log; the two share one definition.  Clock
readings are arguments.
-/
import Moneu.Consensus.Mempool
import Moneu.Storage.ChainState
import Moneu.Validation.Accepts
import Moneu.Wallet.WalletManager

namespace Moneu

open NetParams

/-! ## 1. Admission -/

/-- The text of a failed check, without its result code. -/
def Failure.plain {R : Type} : Failure R → Failure Unit
  | .invalid _ reason => .invalid () reason
  | .threw what => .threw what

/-- A check of `TxValidation` as its callers see it. -/
def TxCheck.plain {α : Type} (check : TxCheck α) : Except (Failure Unit) α :=
  check.mapError Failure.plain

@[simp]
theorem TxCheck.plain_eq_ok {α : Type} {check : TxCheck α} {a : α} :
    check.plain = .ok a ↔ check = .ok a := by
  cases check with
  | ok b =>
    constructor
    · intro h
      cases h
      rfl
    · intro h
      cases h
      rfl
  | error e =>
    constructor
    · intro h
      cases h
    · intro h
      cases h

/-- The loop that adds up what the inputs are worth. -/
def totalIn (u : UTXOSet) : Int64 → List TxInput → Option Int64
  | total, [] => some total
  | total, input :: rest =>
    match u.getCoin input.outpoint with
    | none => none
    | some coin => totalIn u (total + coin.value) rest

/-- `totalIn - tx.GetValueOut()`, where an input may have vanished by now. -/
def feeOf (u : UTXOSet) (tx : Transaction) : Except (Failure Unit) Int64 :=
  match totalIn u 0 tx.inputs with
  | none => .error (.invalid () "input vanished during fee computation")
  | some total => (tx.getValueOut.mapError Failure.threw).map (total - ·)

def validateAndComputeFee [Ed25519] (s : ChainState) (tx : Transaction) :
    Except (Failure Unit) Int64 := do
  (TxValidation.checkTransaction tx).plain
  if tx.isCoinbase then throw (.invalid () "loose coinbase is never valid")
  let nextHeight := UInt32.ofNat (s.bestChain.height + 1)
  (TxValidation.checkTransactionWithUTXO tx s.utxoSet nextHeight).plain
  let _ ← (TxValidation.verifyTransactionSignatures tx s.utxoSet []).plain
  feeOf s.utxoSet tx

theorem validateAndComputeFee_eq_ok [Ed25519] {s : ChainState} {tx : Transaction} {fee : Int64} :
    validateAndComputeFee s tx = .ok fee ↔
      TxValidation.checkTransaction tx = .ok () ∧ tx.isCoinbase = false ∧
      TxValidation.checkTransactionWithUTXO tx s.utxoSet (UInt32.ofNat (s.bestChain.height + 1)) =
        .ok () ∧
      (∃ leaves, TxValidation.verifyTransactionSignatures tx s.utxoSet [] = .ok leaves) ∧
      feeOf s.utxoSet tx = .ok fee := by
  unfold validateAndComputeFee
  cases hcb : tx.isCoinbase with
  | true =>
    refine ⟨fun h => ?_, fun h => by cases h.2.1⟩
    obtain ⟨_, -, h⟩ := bind_eq_ok.mp h
    cases h
  | false =>
    constructor
    · intro h
      obtain ⟨⟨⟩, hcheck, h⟩ := bind_eq_ok.mp h
      obtain ⟨⟨⟩, hutxo, h⟩ := bind_eq_ok.mp h
      obtain ⟨leaves, hverify, h⟩ := bind_eq_ok.mp h
      exact ⟨TxCheck.plain_eq_ok.mp hcheck, rfl, TxCheck.plain_eq_ok.mp hutxo,
        ⟨leaves, TxCheck.plain_eq_ok.mp hverify⟩, h⟩
    · rintro ⟨hcheck, -, hutxo, ⟨leaves, hverify⟩, hfee⟩
      refine bind_eq_ok.mpr ⟨(), TxCheck.plain_eq_ok.mpr hcheck, ?_⟩
      refine bind_eq_ok.mpr ⟨(), TxCheck.plain_eq_ok.mpr hutxo, ?_⟩
      exact bind_eq_ok.mpr ⟨leaves, TxCheck.plain_eq_ok.mpr hverify, hfee⟩

def acceptToMempool [Ed25519] [Doubles] (s : ChainState) (p : Mempool) (now : Int64)
    (tx : Transaction) : Mempool × Outcome Bool :=
  match validateAndComputeFee s tx with
  | .error (.threw what) => (p, .threw what)
  | .error (.invalid _ _) => (p, .ret false)
  | .ok fee => p.addTransaction now tx fee

/-! ## 2. The queues of the chain -/

/-- `TakeMempoolSync`: the transactions of the connected and of the disconnected blocks, the latter
with the lowest block first. -/
def ChainState.takeMempoolSync (s : ChainState) : ChainState × List Transaction × List Transaction :=
  ({ s with syncConnected := [], syncDisconnected := [], syncDisconnectedBytes := 0 },
    s.syncConnected, s.syncDisconnected.reverse)

/-- The re-admission loop of `SyncMempoolWithChain`; each turn reads the clock, and an exception ends
it. -/
def readmit [Ed25519] [Doubles] (s : ChainState) : List (Int64 × Transaction) → Mempool →
    Mempool × Outcome Unit
  | [], p => (p, .ret ())
  | (now, tx) :: rest, p =>
    match acceptToMempool s p now tx with
    | (p, .threw what) => (p, .threw what)
    | (p, .ret _) => readmit s rest p

namespace WalletManager

def releaseOutpointsOf (w : WalletManager) (tx : Transaction) : WalletManager :=
  { w with
    heldOutpoints := tx.inputs.foldl (fun held input => held.erase input.outpoint) w.heldOutpoints }

/-- `ReleaseOutpointsFor` each of the transactions. -/
def releaseAll [WalletCrypto] (w : WalletManager) (txs : List Transaction) : WalletManager :=
  txs.foldl (fun w tx => w.releaseOutpointsFor tx.getHash) w

end WalletManager

/-- The parts of `MoneuNode` that work on transactions. -/
structure MoneuNode where
  chainState : ChainState
  mempool : Mempool
  wallet : WalletManager

namespace MoneuNode

variable [Ed25519] [Doubles] [WalletCrypto]

/-- `SyncMempoolWithChain`; `clock i` is read for the re-admission number `i`. -/
def syncMempoolWithChain (n : MoneuNode) (clock : Nat → Int64) : MoneuNode × Outcome Unit :=
  let (chainState, connected, disconnected) := n.chainState.takeMempoolSync
  let mempool := if connected.isEmpty then n.mempool else n.mempool.removeForBlock connected
  let wallet := (n.wallet.releaseAll connected).releaseAll disconnected
  let (mempool, outcome) :=
    readmit chainState (disconnected.zipIdx.map fun tx => (clock tx.2, tx.1)) mempool
  ({ chainState, mempool, wallet }, outcome)

end MoneuNode

end Moneu
