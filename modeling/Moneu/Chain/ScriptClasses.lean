/-
# Script classes and coins

`Solver` knows two kinds of scripts.  A data script is `OP_RETURN` and pushes, and what it carries is the
concatenation of the pushes, however the bytes were cut; no coin can stand on it.  A payment is the one
template of 37 bytes.  So an output with a positive value creates a coin exactly if it is a payment.
-/
import Moneu.Chain.Active

namespace Moneu

open Journal UTXOSet Script

section Created

variable {u u' : UTXOSet} {tx : Transaction} {height : UInt32} {isCoinbase : Bool} {spent : List Coin}

theorem getCoin_applyTransaction (h : u.applyTransaction tx height isCoinbase = .ok (u', spent)) :
    u'.getCoin = replay (tx.coinLog height isCoinbase) u.getCoin := by
  cases isCoinbase with
  | true =>
    rw [applyTransaction_coinbase] at h
    cases h
    exact getCoin_coinbase u tx height
  | false =>
    obtain ⟨coins, hspendable, heq⟩ := applyTransaction_eq_ok.mp h
    cases heq
    exact getCoin_applied u tx height hspendable.length_eq

/-- A coin that is created is there afterwards, and where none is created nothing new is there. -/
theorem getCoin_created (h : u.applyTransaction tx height isCoinbase = .ok (u', spent)) {o : OutPoint}
    {c : Coin} : ((o, c) ∈ tx.created height isCoinbase → u'.getCoin o = some c) ∧
      (u'.getCoin o = some c → u.getCoin o = some c ∨ (o, c) ∈ tx.created height isCoinbase) := by
  have hview : u'.getCoin = (u.view.applyTx height isCoinbase tx).coins := getCoin_applyTransaction h
  rw [hview]
  exact ⟨View.coins_applyTx_created, View.coins_applyTx⟩

/-- **An output with a positive value creates its coin if and only if it is a payment.** -/
theorem created_iff_pubkeyHash {i : Nat} {output : TxOutput} (hi : tx.outputs[i]? = some output)
    (hvalue : 0 < output.value) (height : UInt32) (isCoinbase : Bool) :
    (∃ c, (⟨tx.getHash, UInt32.ofNat i⟩, c) ∈ tx.created height isCoinbase) ↔
      (solver output.scriptPubKey).1 = .PUBKEYHASH := by
  rw [solver_eq_pubkeyHash]
  constructor
  · rintro ⟨c, hc⟩
    obtain ⟨j, output', pubkeyHash, hj, -, -, hscript, ho, -⟩ := mem_newCoins hc
    have hlt : i < 2 ^ 32 ∧ j < 2 ^ 32 := by
      have hle := tx.outputs_le
      have hmax : Transaction.MAX_OUTPUTS < 2 ^ 32 := by decide
      have hilen := (List.getElem?_eq_some_iff.mp hi).1
      have hjlen := (List.getElem?_eq_some_iff.mp hj).1
      omega
    have hindex := congrArg (fun o => o.index.toNat) ho
    simp only [Nat.zero_add, toNat_ofNat_of_lt hlt.1, toNat_ofNat_of_lt hlt.2] at hindex
    rw [← hindex, hi] at hj
    cases hj
    exact ⟨pubkeyHash, extractPubkeyHash_eq_some.mp hscript⟩
  · rintro ⟨pubkeyHash, hscript⟩
    refine ⟨Coin.unspent output.value pubkeyHash height isCoinbase, ?_⟩
    rw [← Nat.zero_add i]
    exact mem_newCoins_of_payment hi hvalue hscript

end Created

/-- **Script classes.**  `OP_RETURN` with pushes carries its data and is unspendable; the payments are
the scripts of the template; and `ApplyTransaction` makes a coin of an output with a positive value
exactly if it is a payment. -/
theorem script_classes :
    (∀ ds : List (List UInt8), (ds.map List.length).sum ≤ MAX_SCRIPT_SIZE →
      solver (ds.foldl pushData [OP_RETURN]) = (.NULL_DATA, [ds.flatten]) ∧
      isUnspendable (ds.foldl pushData [OP_RETURN]) = true) ∧
    (∀ pubkeyHash, extractPubkeyHash (createPayToPubkeyHash pubkeyHash) = some pubkeyHash) ∧
    (∀ script, ((solver script).1 = .PUBKEYHASH ↔
        ∃ pubkeyHash, script = createPayToPubkeyHash pubkeyHash) ∧
      ((solver script).1 = .PUBKEYHASH → isUnspendable script = false)) ∧
    ∀ (tx : Transaction) (i : Nat) (output : TxOutput), tx.outputs[i]? = some output → 0 < output.value →
      ∀ (u u' : UTXOSet) (height : UInt32) (isCoinbase : Bool) (spent : List Coin),
        u.applyTransaction tx height isCoinbase = .ok (u', spent) →
        ((∃ c, (⟨tx.getHash, UInt32.ofNat i⟩, c) ∈ tx.created height isCoinbase ∧
            u'.getCoin ⟨tx.getHash, UInt32.ofNat i⟩ = some c) ↔
          (solver output.scriptPubKey).1 = .PUBKEYHASH) ∧
        ((solver output.scriptPubKey).1 ≠ .PUBKEYHASH → ∀ c,
          u'.getCoin ⟨tx.getHash, UInt32.ofNat i⟩ = some c →
            u.getCoin ⟨tx.getHash, UInt32.ofNat i⟩ = some c) := by
  refine ⟨fun ds hsum => ⟨?_, ?_⟩, extractPubkeyHash_createPayToPubkeyHash,
    fun script => ⟨solver_eq_pubkeyHash, fun h => ?_⟩, ?_⟩
  · refine solver_pushes fun d hd => ?_
    have hle : d.length ≤ (ds.map List.length).sum := List.le_sum_of_mem (List.mem_map_of_mem hd)
    rw [MAX_SCRIPT_SIZE] at hsum
    omega
  · rw [foldl_pushData]
    rfl
  · obtain ⟨pubkeyHash, rfl⟩ := solver_eq_pubkeyHash.mp h
    exact isUnspendable_createPayToPubkeyHash pubkeyHash
  · intro tx i output hi hvalue u u' height isCoinbase spent happly
    have hiff := created_iff_pubkeyHash hi hvalue height isCoinbase
    refine ⟨?_, fun hne c hc => ?_⟩
    · rw [← hiff]
      constructor
      · rintro ⟨c, hc, -⟩
        exact ⟨c, hc⟩
      · rintro ⟨c, hc⟩
        exact ⟨c, hc, (getCoin_created happly).1 hc⟩
    · rcases (getCoin_created happly).2 hc with hold | hnew
      · exact hold
      · exact absurd (hiff.mp ⟨c, hnew⟩) hne

end Moneu
