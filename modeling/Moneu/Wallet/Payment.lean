/-
# A payment from start to end

What a wallet with one coin sends: the coin is found (`spendable_single`), `CreateTransaction` spends it
whole (`createTransaction_exact`), and the proofs that `SignTransaction` attaches are the ones
`VerifyTransactionSignatures` asks for (`verifyInput_of_proofs`).

The payer of `Moneu.Wallet.Transfer` has a noise file of zeros.  All nodes on one level of its tree are
equal, so the proof of any leaf can be written down (`createProofAt_zeros`); with it the payments of that
payer are explicit transactions.
-/
import Moneu.Wallet.NoiseTree
import Moneu.Wallet.SignedSize

namespace Moneu

open NetParams Merkle

/-! ## 1. Proofs that pass -/

namespace TxValidation

theorem not_over_of_nonneg {v : Int64} (hv : 0 ≤ v) : ¬ (0 : Int64) > Int64.maxValue - v := by
  have hlt := v.toInt_lt
  have hnonneg := MachineInt.toInt_nonneg hv
  rw [gt_iff_lt, Int64.lt_iff_toInt_lt, Int64.toInt_sub, Int.bmod_def, MachineInt.toInt_maxValue,
    MachineInt.toInt_zero]
  omega

theorem safeAdd_zero {v : Int64} (hv : 0 ≤ v) : safeAdd 0 v = some v := by
  simp [safeAdd, Int64.not_lt.mpr hv, not_over_of_nonneg hv]

section Proofs

variable {u : UTXOSet} {kps txHash : Bytes32}

/-- The proof `p` passes, and its leaf is unspent. -/
structure GoodProof (u : UTXOSet) (kps txHash : Bytes32) (p : NoiseProof) : Prop where
  shaped : p.Shaped
  verifies : verifyProof kps txHash p NOISE_LEAF_COUNT = true
  unspent : u.isNoiseLeafSpent ⟨kps, p.leafIndex⟩ = false

/-- **Proofs for the wanted leaves pass**, if none was claimed before. -/
theorem checkProofs_of_proofs {i : Nat} {rest : List UInt8} : ∀ {proofs : List NoiseProof}
    {scope : List NoiseLeafKey}, (∀ p ∈ proofs, GoodProof u kps txHash p) →
    (proofs.map NoiseProof.leafIndex).Nodup → (∀ p ∈ proofs, (⟨kps, p.leafIndex⟩ : NoiseLeafKey) ∉ scope) →
    checkProofs u kps txHash i (proofs.map NoiseProof.leafIndex)
        (proofs.flatMap NoiseProof.serialize ++ rest) scope =
      .ok (rest, (UTXOSet.leafKeys kps proofs).reverse ++ scope)
  | [], scope, _, _, _ => rfl
  | p :: proofs, scope, hgood, hnodup, hfresh => by
    obtain ⟨hp, hgood⟩ := List.forall_mem_cons.mp hgood
    obtain ⟨hscope, hfresh⟩ := List.forall_mem_cons.mp hfresh
    rw [List.map_cons, List.nodup_cons] at hnodup
    have hnext : ∀ q ∈ proofs,
        (⟨kps, q.leafIndex⟩ : NoiseLeafKey) ∉ (⟨kps, p.leafIndex⟩ : NoiseLeafKey) :: scope := by
      intro q hq hmem
      rcases List.mem_cons.mp hmem with heq | hmem
      · exact hnodup.1 ((NoiseLeafKey.mk.inj heq).2 ▸ List.mem_map_of_mem hq)
      · exact hfresh q hq hmem
    rw [List.map_cons, List.flatMap_cons, List.append_assoc, checkProofs, hp.shaped.decodes]
    simp only [hp.verifies, hp.unspent, hscope, ne_eq, not_true_eq_false, Bool.not_true,
      Bool.false_eq_true, ↓reduceIte]
    rw [checkProofs_of_proofs hgood hnodup.2 hnext]
    simp [UTXOSet.leafKeys]

theorem verifyInput_of_proofs [Ed25519] {tx : Transaction} {i : Nat} {input : TxInput} {coin : Coin}
    {proofs : List NoiseProof} {scope : List NoiseLeafKey}
    (hcoin : u.getCoin input.outpoint = some coin)
    (hsignature :
      tx.verifySignature i input (TxOutput.ofPubkeyHash coin.value coin.pubkeyHash) = true)
    (hproofs : input.noiseProof = proofs.flatMap NoiseProof.serialize)
    (hwanted : deriveLeafIndices tx.getHash input.kps (UInt32.ofNat i) NOISE_PROOFS_PER_INPUT
      NOISE_LEAF_COUNT = proofs.map NoiseProof.leafIndex)
    (hne : proofs ≠ []) (hkps : input.kps.isZero = false)
    (hgood : ∀ p ∈ proofs, GoodProof u input.kps tx.getHash p)
    (hnodup : (proofs.map NoiseProof.leafIndex).Nodup)
    (hfresh : ∀ p ∈ proofs, (⟨input.kps, p.leafIndex⟩ : NoiseLeafKey) ∉ scope) :
    verifyInput tx u i input scope = .ok ((UTXOSet.leafKeys input.kps proofs).reverse ++ scope) := by
  have hbytes : input.noiseProof.isEmpty = false := by
    cases proofs with
    | nil => exact absurd rfl hne
    | cons p proofs =>
      rw [hproofs, List.isEmpty_eq_false_iff, ← List.length_pos_iff, List.flatMap_cons,
        List.length_append, NoiseProof.length_serialize]
      omega
  have hcheck : checkProofs u input.kps tx.getHash i (proofs.map NoiseProof.leafIndex)
      (proofs.flatMap NoiseProof.serialize ++ []) scope =
        .ok ([], (UTXOSet.leafKeys input.kps proofs).reverse ++ scope) :=
    checkProofs_of_proofs hgood hnodup hfresh
  rw [List.append_nil, ← hproofs] at hcheck
  unfold verifyInput
  rw [hcoin]
  simp only [hsignature, hbytes, hwanted, hnodup, hcheck, hkps, Bool.not_true, Bool.false_eq_true,
    not_true_eq_false, ↓reduceIte, List.isEmpty_nil]

end Proofs

end TxValidation

/-! ## 2. One coin -/

namespace WalletManager

section OneCoin

variable {w : WalletManager} {u : UTXOSet} {chainHeight : UInt32} {poolTxs : List Transaction}
  {o : OutPoint} {c : Coin}

/-- The coin `c` at `o` is the only one of the wallet. -/
structure OnlyCoin (w : WalletManager) (u : UTXOSet) (o : OutPoint) (c : Coin) : Prop where
  coin : u.getCoin o = some c
  mine : c.pubkeyHash ∈ w.mine
  only : ∀ o' c', u.getCoin o' = some c' → c'.pubkeyHash ∈ w.mine → o' = o

theorem mem_spendable_iff {utxo : OutPoint × Coin} :
    utxo ∈ w.spendable u chainHeight poolTxs ↔
      u.getCoin utxo.1 = some utxo.2 ∧ Eligible w chainHeight poolTxs utxo := by
  constructor
  · intro h
    exact ⟨(offered_spendable w u chainHeight poolTxs).found utxo h, eligible_spendable h⟩
  · rintro ⟨hcoin, heligible⟩
    refine List.mem_filter.mpr ⟨mem_getUTXOsForAddresses.mpr ⟨hcoin, heligible.mine⟩, ?_⟩
    simp [heligible.mature, heligible.free, heligible.unclaimed]

/-- **It is what may be selected**, if it passes the filters. -/
theorem OnlyCoin.spendable (h : OnlyCoin w u o c) (heligible : Eligible w chainHeight poolTxs (o, c)) :
    w.spendable u chainHeight poolTxs = [(o, c)] := by
  have hall : ∀ utxo ∈ w.spendable u chainHeight poolTxs, utxo = (o, c) := by
    intro utxo hutxo
    obtain ⟨hcoin, heligible⟩ := mem_spendable_iff.mp hutxo
    have ho := h.only _ _ hcoin heligible.mine
    rw [ho, h.coin] at hcoin
    exact Prod.ext ho (Option.some.inj hcoin).symm
  have hmem : (o, c) ∈ w.spendable u chainHeight poolTxs := mem_spendable_iff.mpr ⟨h.coin, heligible⟩
  have hnodup := (offered_spendable w u chainHeight poolTxs).nodup.of_map
  rw [List.eq_replicate_of_mem hall] at hnodup hmem ⊢
  rw [List.nodup_replicate] at hnodup
  have hpos := (List.mem_replicate.mp hmem).1
  rw [show (w.spendable u chainHeight poolTxs).length = 1 by omega]
  rfl

theorem OnlyCoin.spendable_held (h : OnlyCoin w u o c) (hheld : o ∈ w.heldOutpoints)
    (chainHeight : UInt32) (poolTxs : List Transaction) : w.spendable u chainHeight poolTxs = [] := by
  refine List.eq_nil_iff_forall_not_mem.mpr fun utxo hutxo => ?_
  obtain ⟨hcoin, heligible⟩ := mem_spendable_iff.mp hutxo
  exact heligible.free (h.only _ _ hcoin heligible.mine ▸ hheld)

variable [WalletCrypto]

/-- **A coin that is worth just what is needed** is spent whole, and nothing comes back. -/
theorem createTransaction_exact {toAddress message : List UInt8} {amount fee : Int64} {seed : Bytes64}
    {toPubkeyHash : Bytes32} {input : TxInput} {tx : Transaction}
    (hspendable : w.spendable u chainHeight poolTxs = [(o, c)])
    (hrequest : w.checkRequest toAddress amount fee message = .ok (seed, toPubkeyHash))
    (hvalue : amount + fee = c.value) (hpos : 0 < c.value) (hinput : w.inputFor seed (o, c) = .ok input)
    (hbuild : buildTransaction [input] (payments amount toPubkeyHash message ++ []) = .ok tx) :
    w.createTransaction toAddress amount fee u chainHeight poolTxs message =
      (w.hold [(o, c)] tx.getHash, .ret tx) := by
  have hselect : selectCoins c.value 0 [(o, c)] = ([(o, c)], c.value) := by
    simp [selectCoins, Int64.not_le.mpr hpos]
  have hchange : w.changeOutputs (c.value - c.value) = .ok (w, []) := by
    simp [changeOutputs, DUST_THRESHOLD]
  unfold createTransaction
  rw [hrequest, hspendable, hvalue]
  dsimp only
  rw [hselect]
  simp only [List.mapM_cons, List.mapM_nil, hinput, Int64.lt_irrefl, ↓reduceIte]
  dsimp only [bind, Except.bind, pure, Except.pure]
  rw [if_neg (by simp [Transaction.MAX_INPUTS]), hchange]
  dsimp only
  rw [hbuild]

theorem createTransaction_nothing {toAddress message : List UInt8} {amount fee : Int64}
    (hspendable : w.spendable u chainHeight poolTxs = []) (hneeded : 0 < amount + fee) : ∃ what,
      w.createTransaction toAddress amount fee u chainHeight poolTxs message = (w, .threw what) := by
  unfold createTransaction
  rw [hspendable]
  split
  case h_1 => exact ⟨_, rfl⟩
  case h_2 =>
    simp only [selectCoins, hneeded, ↓reduceIte]
    exact ⟨_, rfl⟩

end OneCoin

/-! ## 3. The noise file of zeros -/

section Zeros

/-- The proof of a leaf of that file. -/
def zerosProof (txHash : Bytes32) (leaf : UInt32) : NoiseProof where
  leafIndex := leaf
  leaf := FixedBytes.zero
  boundProof := bindLeafToTx FixedBytes.zero txHash
  merklePath := doubles sha256Pair 20 (sha256 (FixedBytes.zero : Bytes32).data)
  pathDirs := dirsOf leaf.toNat 20

theorem shaped_zerosProof (txHash : Bytes32) (leaf : UInt32) : (zerosProof txHash leaf).Shaped where
  dirs := by
    change (dirsOf leaf.toNat 20).length = (doubles _ 20 _).length
    rw [length_dirsOf, length_doubles]
  path_le := by
    change (doubles _ 20 _).length ≤ 64
    rw [length_doubles]
    decide

theorem length_serialize_zerosProof (txHash : Bytes32) (leaf : UInt32) :
    (zerosProof txHash leaf).serialize.length = 732 := by
  rw [NoiseProof.length_serialize, (shaped_zerosProof txHash leaf).dirs]
  change 72 + 32 * (doubles _ 20 _).length + (doubles _ 20 _).length = 732
  rw [length_doubles]

theorem sha256Pair_eq : sha256Pair = fun a b => fastSha256 (a.data ++ b.data) := by
  funext a b
  rw [sha256Pair, sha256_eq]

theorem doubled_zeros :
    doubled sha256Pair 20 (sha256 (FixedBytes.zero : Bytes32).data) = zerosKps := by
  rw [sha256Pair_eq, sha256_eq]
  decide +kernel

theorem verifyProof_zeros (txHash : Bytes32) {leaf : UInt32} (hleaf : leaf < NOISE_LEAF_COUNT) :
    verifyProof zerosKps txHash (zerosProof txHash leaf) NOISE_LEAF_COUNT = true := by
  have hdepth : depth 33 NOISE_LEAF_COUNT.toNat = 20 := by decide
  refine verifyProof_iff.mpr ⟨hleaf, ?_, ?_, rfl, ?_⟩
  · rw [hdepth]
    exact length_doubles ..
  · rw [hdepth]
    rfl
  · rw [← doubled_zeros]
    exact walk_doubles ..

theorem createProofAt_zeros (txHash : Bytes32) {leaf : UInt32} (hleaf : leaf < NOISE_LEAF_COUNT) :
    zerosFile.createProofAt leaf txHash = .ok (zerosProof txHash leaf) := by
  have hpos : NoiseFile.Position zerosFile NOISE_LEAF_COUNT leaf := ⟨length_zerosFile, hleaf⟩
  have hcount : NOISE_LEAF_COUNT.toNat = 2 ^ 20 := by decide
  have hlt : leaf.toNat < 2 ^ 20 := by
    rw [← hcount]
    exact UInt32.lt_iff_toNat_lt.mp hleaf
  have hcommitments : zerosFile.commitments =
      List.replicate (2 ^ 20) (sha256 (FixedBytes.zero : Bytes32).data) := by
    rw [NoiseFile.commitments, zerosFile, List.map_replicate, hcount]
  have hleaves : zerosFile.leaves.getD leaf.toNat FixedBytes.zero = FixedBytes.zero := by
    rw [zerosFile, hcount, List.getD_replicate _ hlt]
  have hdepth : depth 33 zerosFile.commitments.length = 20 := by
    rw [hpos.depth_eq]
    decide
  rw [hpos.createProofAt, hdepth, hcommitments, path_replicate _ _ (by decide) _ hlt, hleaves]
  rfl

end Zeros

theorem proveLeaves_zeros {w : WalletManager} (hunused : w.noiseUsed = []) (txHash : Bytes32) :
    ∀ {leaves consumed : List UInt32}, (consumed ++ leaves).Nodup →
      (∀ leaf ∈ leaves, leaf < NOISE_LEAF_COUNT) →
      w.proveLeaves zerosFile txHash leaves consumed =
        .ok (leaves.map (zerosProof txHash), consumed ++ leaves)
  | [], consumed, _, _ => by rw [List.append_nil]; rfl
  | leaf :: leaves, consumed, hnodup, hrange => by
    obtain ⟨hleaf, hrange⟩ := List.forall_mem_cons.mp hrange
    have hfree : w.isNoiseLeafUsed leaf = false := by
      rw [isNoiseLeafUsed, hunused]
      rfl
    have hnew : leaf ∉ consumed := fun hmem =>
      (List.nodup_append'.mp hnodup).2.2 hmem (List.mem_cons_self ..)
    rw [List.append_cons] at hnodup
    rw [proveLeaves, hfree, if_neg (by decide), if_neg hnew, createProofAt_zeros txHash hleaf]
    simp only [bind, Except.bind, proveLeaves_zeros hunused txHash hnodup hrange, pure, Except.pure,
      List.map_cons, List.append_assoc, List.singleton_append]

/-! ## 4. Payments of the payer -/

/-- What is written down of a payment with one input and one output. -/
structure Slip where
  spends : OutPoint
  value : Int64
  toPubkeyHash : Bytes32
  signature : Bytes64
  sigHash : Bytes32
  txid : Bytes32
  leaves : List UInt32

namespace Slip

/-- The input with some signature and some proofs. -/
def input (slip : Slip) (signature : Bytes64) (noiseProof : List UInt8) : TxInput where
  prevTxHash := slip.spends.txHash
  outputIndex := slip.spends.index
  pubkey := plainCrypto.getPublicKey FixedBytes.zero
  signature := signature
  kps := zerosKps
  noiseProof := noiseProof

/-- The payment with some signature and some proofs. -/
def bare (slip : Slip) (signature : Bytes64) (noiseProof : List UInt8) : Transaction where
  version := CURRENT_VERSION
  inputs := [slip.input signature noiseProof]
  outputs := [TxOutput.ofPubkeyHash slip.value slip.toPubkeyHash]
  locktime := 0
  inputs_le := Transaction.one_le_MAX_INPUTS
  outputs_le := Transaction.one_le_MAX_OUTPUTS

def proofs (slip : Slip) : List NoiseProof := slip.leaves.map (zerosProof slip.txid)

/-- The payment as it is created. -/
def unsigned (slip : Slip) : Transaction := slip.bare FixedBytes.zero []

def tx (slip : Slip) : Transaction :=
  slip.bare slip.signature (slip.proofs.flatMap NoiseProof.serialize)

/-- The leaves it reveals. -/
def leafKeys (slip : Slip) : List NoiseLeafKey := UTXOSet.leafKeys zerosKps slip.proofs

/-- It can be created: it spends no coinbase marker and pays neither dust nor too much. -/
structure Payable (slip : Slip) : Prop where
  spends : slip.spends.txHash.isZero = false
  range : DUST_THRESHOLD ≤ slip.value ∧ slip.value ≤ MAX_MONEY

/-- What is written down is so. -/
structure Fits (slip : Slip) : Prop extends Payable slip where
  getHash : (slip.bare slip.signature []).getHash = slip.txid
  sigHash : slip.unsigned.getSignatureHash 0 = slip.sigHash
  wanted : deriveLeafIndices slip.txid zerosKps 0 NOISE_PROOFS_PER_INPUT NOISE_LEAF_COUNT = slip.leaves
  nodup : slip.leaves.Nodup

theorem outpoints (slip : Slip) (signature : Bytes64) (noiseProof : List UInt8) :
    (slip.bare signature noiseProof).inputs.map TxInput.outpoint = [slip.spends] := rfl

theorem length_noiseProof (slip : Slip) :
    (slip.proofs.flatMap NoiseProof.serialize).length = 732 * slip.leaves.length := by
  rw [proofs]
  induction slip.leaves with
  | nil => rfl
  | cons leaf leaves ih =>
    rw [List.map_cons, List.flatMap_cons, List.length_append, ih, length_serialize_zerosProof,
      List.length_cons]
    omega

theorem getSerializedSize_bare (slip : Slip) (signature : Bytes64) (noiseProof : List UInt8) :
    (slip.bare signature noiseProof).getSerializedSize true = 234 + noiseProof.length := by
  have hlen : compactSizeLen 37 = 1 := rfl
  simp only [bare, input, Transaction.getSerializedSize, TxOutput.getSerializedSize,
    TxInput.getSerializedSize, Script.length_createPayToPubkeyHash, TxOutput.ofPubkeyHash, hlen, List.map_cons, List.map_nil,
    List.sum_cons, List.sum_nil, ↓reduceIte]
  omega

namespace Payable

variable {slip : Slip}

theorem isCoinbase (h : slip.Payable) (signature : Bytes64) (noiseProof : List UInt8) :
    (slip.bare signature noiseProof).isCoinbase = false := by
  simp [Transaction.isCoinbase, bare, input, h.spends]

theorem value_pos (h : slip.Payable) : 0 ≤ slip.value :=
  Int64.le_trans (by decide) h.range.1

theorem getValueOut (h : slip.Payable) (signature : Bytes64) (noiseProof : List UInt8) :
    (slip.bare signature noiseProof).getValueOut = .ok slip.value := by
  have hneg : ¬ slip.value < 0 := Int64.not_lt.mpr h.value_pos
  have hover := TxValidation.not_over_of_nonneg h.value_pos
  change Transaction.valueOutFrom 0 [TxOutput.ofPubkeyHash slip.value slip.toPubkeyHash] = _
  simp [Transaction.valueOutFrom, TxOutput.ofPubkeyHash, hneg, hover]

theorem isValid (h : slip.Payable) (signature : Bytes64) {noiseProof : List UInt8}
    (hproof : noiseProof.length ≤ 99766) : (slip.bare signature noiseProof).isValid = .ok true := by
  have hinput : (slip.input signature noiseProof).isValid = true := by
    have hkey : (plainCrypto.getPublicKey FixedBytes.zero).isZero = false := by decide
    simp [TxInput.isValid, input, hkey]
  have houtput : (TxOutput.ofPubkeyHash slip.value slip.toPubkeyHash).isValid = true := by
    simp [TxOutput.isValid, TxOutput.ofPubkeyHash, Script.length_createPayToPubkeyHash, MAX_SCRIPT_SIZE,
      Int64.not_lt.mpr h.value_pos, ← List.length_eq_zero_iff]
  have hdust : (TxOutput.ofPubkeyHash slip.value slip.toPubkeyHash).isDust = false := by
    simp [TxOutput.isDust, TxOutput.ofPubkeyHash, Int64.not_lt.mpr h.range.1]
  have hsize : ¬ 234 + noiseProof.length > Transaction.MAX_TX_SIZE := by
    rw [Transaction.MAX_TX_SIZE]
    omega
  unfold Transaction.isValid
  rw [h.getValueOut, getSerializedSize_bare, if_neg hsize]
  simp only [bare, List.isEmpty_cons, List.all_cons, List.all_nil, hinput, houtput, hdust, Except.map,
    h.value_pos, decide_true, Bool.or_false, Bool.and_true, Bool.false_and, Bool.not_false, Bool.not_true,
    Bool.false_eq_true, ↓reduceIte]

theorem buildTransaction (h : slip.Payable) :
    buildTransaction [slip.input FixedBytes.zero []] (payments slip.value slip.toPubkeyHash [] ++ []) =
      .ok slip.unsigned := by
  have hbuilt : Transaction.build CURRENT_VERSION [slip.input FixedBytes.zero []]
      (payments slip.value slip.toPubkeyHash [] ++ []) 0 = .ok slip.unsigned := rfl
  have hvalid : slip.unsigned.isValid = .ok true := h.isValid _ (by decide)
  rw [WalletManager.buildTransaction, hbuilt]
  simp only [bind, Except.bind, hvalid]
  rfl

end Payable

namespace Fits

variable {slip : Slip}

theorem tx_getHash (h : slip.Fits) : slip.tx.getHash = slip.txid := h.getHash

theorem length_leaves (h : slip.Fits) : slip.leaves.length = 4 := by
  rw [← h.wanted, length_deriveLeafIndices]
  rfl

theorem getSerializedSize (h : slip.Fits) : slip.tx.getSerializedSize true = 3162 := by
  rw [tx, getSerializedSize_bare, length_noiseProof, h.length_leaves]

theorem leaf_lt (h : slip.Fits) : ∀ leaf ∈ slip.leaves, leaf < NOISE_LEAF_COUNT := by
  intro leaf hleaf
  rw [← h.wanted] at hleaf
  exact deriveLeafIndices_lt hleaf

theorem leafIndices (slip : Slip) : slip.proofs.map NoiseProof.leafIndex = slip.leaves := by
  rw [proofs, List.map_map]
  exact List.map_id' slip.leaves

theorem checkTransaction (h : slip.Fits) : TxValidation.checkTransaction slip.tx = .ok () := by
  have hsize : TxValidation.checkTxSize slip.tx = .ok () := by
    rw [TxValidation.checkTxSize, h.getSerializedSize]
    rfl
  have hcb : slip.tx.isCoinbase = false := h.isCoinbase _ _
  have hinputs : TxValidation.checkTxInputs slip.tx = .ok () := by
    have hnull : (slip.tx.inputs.any fun input => input.prevTxHash.isZero) = false := by
      simp [tx, bare, input, h.spends]
    unfold TxValidation.checkTxInputs
    rw [hcb, hnull, tx, outpoints]
    simp [bare]
  have hmoney : TxValidation.checkMoneyRange slip.value = .ok () :=
    TxValidation.checkMoneyRange_eq_ok.mpr ⟨Int64.le_iff_toInt_le.mp h.value_pos,
      Int64.le_iff_toInt_le.mp h.range.2⟩
  have houtputs : TxValidation.checkTxOutputs slip.tx = .ok () := by
    have hscript : TxValidation.checkScript 0 (Script.createPayToPubkeyHash slip.toPubkeyHash) =
        .ok .PUBKEYHASH := by
      rw [TxValidation.checkScript, Script.solver_createPayToPubkeyHash]
    have hdust : ¬ slip.value < DUST_THRESHOLD := Int64.not_lt.mpr h.range.1
    have hmax : ¬ slip.value > MAX_MONEY := Int64.not_lt.mpr h.range.2
    unfold TxValidation.checkTxOutputs
    rw [hcb, if_neg (by simp [tx, bare])]
    change TxValidation.checkOutputsFrom false 0 0 [TxOutput.ofPubkeyHash _ _] = _
    simp only [TxValidation.checkOutputsFrom, TxOutput.ofPubkeyHash, hmoney, hscript, hdust, hmax,
      TxValidation.safeAdd_zero h.value_pos, bind, Except.bind, decide_false, Bool.and_false,
      Bool.false_eq_true, ↓reduceIte]
  unfold TxValidation.checkTransaction
  rw [hsize, hinputs, houtputs, hcb]
  rfl

/-- **The payment is verified** against a coin of the payer, if its leaves are new. -/
theorem verifyTransactionSignatures [Ed25519] (h : slip.Fits) {u : UTXOSet} {c : Coin}
    {scope : List NoiseLeafKey}
    (hverify : Ed25519.verifySimple (plainCrypto.getPublicKey FixedBytes.zero) slip.signature
      slip.sigHash.data = true)
    (hcoin : u.getCoin slip.spends = some c) (hpays : c.pubkeyHash = payerHash)
    (hunspent : ∀ key ∈ slip.leafKeys, u.isNoiseLeafSpent key = false)
    (hfresh : ∀ key ∈ slip.leafKeys, key ∉ scope) :
    TxValidation.verifyTransactionSignatures slip.tx u scope = .ok (slip.leafKeys.reverse ++ scope) := by
  have hkey : ∀ p ∈ slip.proofs, (⟨zerosKps, p.leafIndex⟩ : NoiseLeafKey) ∈ slip.leafKeys :=
    fun p hp => List.mem_map.mpr ⟨p, hp, rfl⟩
  have hgood : ∀ p ∈ slip.proofs, TxValidation.GoodProof u zerosKps slip.tx.getHash p := by
    intro p hp
    have hspent := hunspent _ (hkey p hp)
    obtain ⟨leaf, hleaf, rfl⟩ := List.mem_map.mp hp
    rw [h.tx_getHash]
    exact ⟨shaped_zerosProof _ _, verifyProof_zeros _ (h.leaf_lt leaf hleaf), hspent⟩
  have hsignature : slip.tx.verifySignature 0
      (slip.input slip.signature (slip.proofs.flatMap NoiseProof.serialize))
      (TxOutput.ofPubkeyHash c.value c.pubkeyHash) = true := by
    have hbound : Transaction.noiseBoundHash (plainCrypto.getPublicKey FixedBytes.zero) zerosKps =
        (TxOutput.ofPubkeyHash c.value c.pubkeyHash).getPubkeyHash := by
      rw [noiseBoundHash_payer, TxOutput.getPubkeyHash, TxOutput.ofPubkeyHash,
        Script.extractPubkeyHash_createPayToPubkeyHash, hpays]
      rfl
    have hhash : slip.tx.getSignatureHash 0 = slip.sigHash := h.sigHash
    simp only [Transaction.verifySignature, input, hbound, hhash, hverify, ne_eq, not_true_eq_false,
      ↓reduceIte]
  have hwanted : deriveLeafIndices slip.tx.getHash zerosKps (UInt32.ofNat 0) NOISE_PROOFS_PER_INPUT
      NOISE_LEAF_COUNT = slip.proofs.map NoiseProof.leafIndex := by
    rw [h.tx_getHash, leafIndices slip]
    exact h.wanted
  have hne : slip.proofs ≠ [] := by
    intro hnil
    have hlen := h.length_leaves
    rw [← leafIndices slip, hnil] at hlen
    cases hlen
  have hcb : slip.tx.isCoinbase = false := h.isCoinbase _ _
  have hnodup : (slip.proofs.map NoiseProof.leafIndex).Nodup := leafIndices slip ▸ h.nodup
  have hinput : TxValidation.verifyInput slip.tx u 0
      (slip.input slip.signature (slip.proofs.flatMap NoiseProof.serialize)) scope =
        .ok (slip.leafKeys.reverse ++ scope) :=
    TxValidation.verifyInput_of_proofs hcoin hsignature rfl hwanted hne
      (by decide : zerosKps.isZero = false) hgood hnodup fun p hp => hfresh _ (hkey p hp)
  rw [TxValidation.verifyTransactionSignatures, hcb, if_neg (by decide)]
  change TxValidation.verifyInputsFrom slip.tx u 0 [slip.input _ _] scope = _
  rw [TxValidation.verifyInputsFrom, hinput]
  rfl

end Fits

/-- The keys of the payer sign the payment as it is written down. -/
structure Keys [WalletCrypto] (slip : Slip) : Prop where
  pubkey : ∀ secret, WalletCrypto.getPublicKey secret = plainCrypto.getPublicKey FixedBytes.zero
  sign : ∀ secret, WalletCrypto.sign secret slip.sigHash.data = slip.signature

section Wallet

variable [WalletCrypto] {slip : Slip} {w : WalletManager}

omit [WalletCrypto] in
theorem find_payer (hw : LikePayer w) : ∃ rest,
    w.addresses = ⟨buildAddress payerHash, payerHash, 0, [], false⟩ :: rest := by
  obtain ⟨more, hmore⟩ := hw.addresses
  exact ⟨more, hmore⟩

theorem Payable.createTransaction (h : slip.Payable)
    (hkey : ∀ secret, WalletCrypto.getPublicKey secret = plainCrypto.getPublicKey FixedBytes.zero)
    (hw : LikePayer w) {u : UTXOSet} {c : Coin} {toAddress : List UInt8} {fee : Int64} {chainHeight : UInt32}
    {poolTxs : List Transaction} (hspendable : w.spendable u chainHeight poolTxs = [(slip.spends, c)])
    (hpays : c.pubkeyHash = payerHash) (hvalue : slip.value + fee = c.value) (hpos : 0 < c.value)
    (hfee : MIN_TX_FEE ≤ fee) (haddress : decodeAddress toAddress = .ok slip.toPubkeyHash) :
    w.createTransaction toAddress slip.value fee u chainHeight poolTxs [] =
      (w.hold [(slip.spends, c)] slip.unsigned.getHash, .ret slip.unsigned) := by
  have hrequest : w.checkRequest toAddress slip.value fee [] =
      .ok (FixedBytes.zero, slip.toPubkeyHash) := by
    have hpos : ¬ slip.value ≤ 0 := by
      have hdust := h.range.1
      rw [Int64.not_le]
      exact Int64.lt_of_lt_of_le (by decide) hdust
    unfold checkRequest
    simp only [hw.locked, hw.seed, hw.loaded, haddress, hpos, Int64.not_lt.mpr h.range.1,
      Int64.not_lt.mpr hfee, Except.map, List.length_nil, Bool.not_true, Bool.false_eq_true, ↓reduceIte]
    rfl
  have hinput : w.inputFor FixedBytes.zero (slip.spends, c) = .ok (slip.input FixedBytes.zero []) := by
    obtain ⟨rest, hrest⟩ := find_payer hw
    unfold inputFor
    simp only [hrest, hpays, List.find?_cons, decide_true, hkey, hw.kps]
    rfl
  exact createTransaction_exact hspendable hrequest hvalue hpos hinput h.buildTransaction

/-- **The payment is signed**: its hold goes to the signed id, and its leaves are used. -/
theorem Fits.signTransaction (h : slip.Fits) (hkeys : Keys slip) (hw : LikePayer w) :
    w.signTransaction slip.unsigned true =
      ((w.renameHeld slip.unsigned.getHash slip.txid).consume zerosFile slip.leaves, slip.tx,
        .ret true) := by
  have hsigned : w.signInputs FixedBytes.zero slip.unsigned.inputs.length 0 slip.unsigned =
      (slip.bare slip.signature [], true) := by
    obtain ⟨rest, hrest⟩ := find_payer hw
    have hone : signInput slip.unsigned 0 (WalletCrypto.deriveKeyAtIndex FixedBytes.zero 0 false) =
        slip.bare slip.signature [] := by
      simp only [signInput, h.sigHash, hkeys.sign, hkeys.pubkey]
      rfl
    have hinput : slip.unsigned.inputs[0]? = some (slip.input FixedBytes.zero []) := rfl
    have hwant : Transaction.noiseBoundHash (slip.input FixedBytes.zero []).pubkey w.noiseKps =
        payerHash := by
      rw [hw.kps]
      exact noiseBoundHash_payer
    change w.signInputs FixedBytes.zero 1 0 slip.unsigned = _
    simp only [signInputs, hinput, hwant, hrest, List.find?_cons, decide_true, hone]
  have hhash : (slip.bare slip.signature []).getHash = slip.txid := h.getHash
  have hroom : ¬ zerosFile.getRemaining < (slip.bare slip.signature []).inputs.length := by
    have hused : zerosFile.countUsed = 0 := rfl
    have hcount : NOISE_LEAF_COUNT.toNat = 1048576 := rfl
    change ¬ zerosFile.getRemaining < 1
    rw [NoiseFile.getRemaining, length_zerosFile, hused, hcount]
    decide
  obtain ⟨held, hheld⟩ := renameHeld_eq w slip.unsigned.getHash slip.txid
  have hproved : (w.renameHeld slip.unsigned.getHash slip.txid).proveInputs zerosFile slip.txid 0
      (slip.bare slip.signature []).inputs [] =
        .ok (slip.tx.inputs, slip.leaves) := by
    have hunused : (w.renameHeld slip.unsigned.getHash slip.txid).noiseUsed = [] := by
      rw [hheld]
      exact hw.unused
    change proveInputs _ _ _ 0 [slip.input slip.signature []] [] = _
    have hwanted : deriveLeafIndices slip.txid (slip.input slip.signature []).kps (UInt32.ofNat 0)
        NOISE_PROOFS_PER_INPUT NOISE_LEAF_COUNT = slip.leaves := h.wanted
    have hempty : ([] ++ slip.leaves).Nodup := h.nodup
    have hleaves := proveLeaves_zeros hunused slip.txid hempty h.leaf_lt
    simp only [proveInputs, hwanted, h.nodup, not_true_eq_false, ↓reduceIte, hleaves, bind, Except.bind,
      pure, Except.pure]
    rfl
  have hbuilt : Transaction.build (slip.bare slip.signature []).version slip.tx.inputs
      (slip.bare slip.signature []).outputs (slip.bare slip.signature []).locktime = .ok slip.tx := rfl
  simp only [WalletManager.signTransaction, signStage, hw.locked, hw.seed, hw.loaded, hw.file, hsigned,
    hhash, h.isCoinbase, Bool.false_eq_true, hroom, hproved, hbuilt, ↓reduceIte]

end Wallet

end Slip

/-! ## 5. A payment of the payer to itself -/

/-- The txid of a reward of the payer. -/
def rootW : Bytes32 :=
  FixedBytes.ofNat 32 0x4b4c6ed97487e02201b3c8bfffb7d5f88b641709460cc5a726dead6daf33691e

/-- The reward is spent, at a fee of 10000. -/
def slipW : Slip where
  spends := ⟨rootW, 0⟩
  value := 7699990000
  toPubkeyHash := payerHash
  signature := FixedBytes.ofNat 64
    (0x50a9534c0114d8e4ffc99d12a726b114aa91e8c148125a584499b6781ce0539e * 2 ^ 256 +
      0x404018ef70a8777853d49c0d56e657c2cd9cdf7248f5d1f9c5e17dd997644f08)
  sigHash := FixedBytes.ofNat 32 0x71cf6e6cd55159454ead02cce87424d9834a0bcba577692e793f7fdfdce319f8
  txid := FixedBytes.ofNat 32 0x8826d11fa57d9e9341a3233c8483954996d94a108d42d37b2370d9dd4eb43960
  leaves := [818027, 168290, 734303, 90764]

theorem deriveLeafIndex_eq (txHash kps : Bytes32) (inputIndex j leafCount : UInt32) :
    deriveLeafIndex txHash kps inputIndex j leafCount =
      readLE32 (fastSha256 (txHash.data ++ (kps.data ++
        (writeLE32 inputIndex ++ writeLE32 j)))).data % leafCount := by
  rw [deriveLeafIndex, sha256_eq]

theorem fits_slipW : slipW.Fits where
  spends := by decide
  range := by decide
  getHash := by
    rw [Transaction.getHash, sha256_eq]
    decide +kernel
  sigHash := by
    rw [Transaction.getSignatureHash, sha256_eq]
    decide +kernel
  wanted := by
    rw [deriveLeafIndices, if_neg (by decide)]
    simp only [deriveLeafIndex_eq]
    decide +kernel
  nodup := by decide

end WalletManager

end Moneu
