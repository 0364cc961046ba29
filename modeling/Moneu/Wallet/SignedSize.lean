/-
# The size of a signed transfer

`CreateTransaction` checks the size of the transaction it has built, but the proofs come later, in
`SignTransaction`, and they are most of it: with the noise file of a wallet an input grows from 168
to 3096 bytes.  So the limit of 100000 bytes is a limit of 32 inputs, and nothing in the wallet
knows about it.

`checkTransaction_iff` is the exact condition: a transfer that was built and signed passes
`CheckTransaction` if and only if the first 32 coins on offer cover the amount and the fee.
-/
import Moneu.Wallet.Signing
import Moneu.Wallet.Transfer

namespace Moneu

open NetParams MachineInt

/-! ## 1. Outputs that pass -/

/-- A payment above dust, or a message of a length that is allowed. -/
def TxOutput.Standard (out : TxOutput) : Prop :=
  (∃ pubkeyHash, out.scriptPubKey = Script.createPayToPubkeyHash pubkeyHash ∧
    DUST_THRESHOLD ≤ out.value) ∨
  ∃ data, data ≠ [] ∧ data.length ≤ MAX_OP_RETURN_SIZE ∧
    out.scriptPubKey = Script.createNullData data

theorem Transaction.isCoinbase_eq_false {tx : Transaction}
    (h : ∀ input ∈ tx.inputs, input.prevTxHash.isZero = false) : tx.isCoinbase = false := by
  unfold Transaction.isCoinbase
  split
  case h_1 input heq =>
    rw [h input (heq ▸ List.mem_singleton_self input)]
    rfl
  case h_2 => rfl

namespace TxValidation

theorem checkScript_standard {out : TxOutput} (h : out.Standard) (i : Nat) :
    ∃ type, checkScript i out.scriptPubKey = .ok type ∧
      ¬ (type = .PUBKEYHASH ∧ out.value < DUST_THRESHOLD) := by
  rcases h with ⟨pubkeyHash, hscript, hdust⟩ | ⟨data, -, hlen, hscript⟩
  · refine ⟨.PUBKEYHASH, ?_, fun hlow => absurd hdust (Int64.not_le.mpr hlow.2)⟩
    simp only [checkScript, hscript, Script.solver_createPayToPubkeyHash]
  · have hmax : MAX_OP_RETURN_SIZE = 300 := rfl
    refine ⟨.NULL_DATA, ?_, fun hlow => by cases hlow.1⟩
    unfold checkScript
    rw [hscript, Script.solver_createNullData (by omega)]
    exact if_neg (Nat.not_lt.mpr hlen)

/-- **The output loop passes** standard outputs that are worth at most `MAX_MONEY`. -/
theorem checkOutputsFrom_standard : ∀ {outputs : List TxOutput} {i : Nat} {total : Int64},
    MoneyRange total → (∀ out ∈ outputs, MoneyRange out.value ∧ out.Standard) →
    total.toInt + (outputs.map fun out => out.value.toInt).sum ≤ MAX_MONEY.toInt →
    checkOutputsFrom false i total outputs = .ok ()
  | [], _, _, _, _, _ => rfl
  | out :: rest, i, total, htotal, hall, hfits => by
    obtain ⟨⟨hrange, hstandard⟩, hrest⟩ := List.forall_mem_cons.mp hall
    rw [List.map_cons, List.sum_cons] at hfits
    have hnonneg : 0 ≤ (rest.map fun out => out.value.toInt).sum := by
      refine List.sum_nonneg ?_
      intro x hx
      obtain ⟨o, ho, rfl⟩ := List.mem_map.mp hx
      exact (hrest o ho).1.1
    obtain ⟨hsum, hnext⟩ := htotal.add hrange (by omega)
    obtain ⟨type, htype, hdust⟩ := checkScript_standard hstandard i
    have htail := checkOutputsFrom_standard (i := i + 1) hnext hrest (by rw [hsum]; omega)
    have hmax : ¬ total + out.value > MAX_MONEY := by
      rw [gt_iff_lt, Int64.lt_iff_toInt_lt]
      exact Int.not_lt.mpr hnext.2
    unfold checkOutputsFrom
    rw [checkMoneyRange_eq_ok.mpr hrange, htype, htotal.safeAdd hrange]
    simp only [bind, Except.bind]
    rw [if_neg]
    · rw [if_neg hmax]
      exact htail
    · simpa using hdust

/-- **`CheckTransaction`** of a transaction with inputs that are distinct and not null and with
outputs that pass is `CheckTxSize`. -/
theorem checkTransaction_eq_checkTxSize {tx : Transaction} (hne : tx.inputs ≠ [])
    (hnodup : (tx.inputs.map TxInput.outpoint).Nodup)
    (hnull : ∀ input ∈ tx.inputs, input.prevTxHash.isZero = false) (hout : tx.outputs ≠ [])
    (hall : ∀ out ∈ tx.outputs, MoneyRange out.value ∧ out.Standard)
    (htotal : tx.valueOut ≤ MAX_MONEY.toInt) : checkTransaction tx = checkTxSize tx := by
  have hcoinbase := Transaction.isCoinbase_eq_false hnull
  have hinputs : checkTxInputs tx = .ok () := by
    unfold checkTxInputs
    rw [if_neg (by simpa using hne), if_neg (by rw [hcoinbase]; decide), if_neg (by simpa using hnodup),
      if_neg]
    simpa using hnull
  have houtputs : checkTxOutputs tx = .ok () := by
    unfold checkTxOutputs
    rw [if_neg (by simpa using hout), hcoinbase]
    refine checkOutputsFrom_standard ⟨by decide, by decide⟩ hall ?_
    rw [toInt_zero, Int.zero_add]
    exact htotal
  unfold checkTransaction
  rw [hinputs, houtputs, hcoinbase]
  cases checkTxSize tx <;> rfl

end TxValidation

namespace WalletManager

/-! ## 2. The signed form -/

section Signed

variable [WalletCrypto]

/-- The noise file, if there is one, has as many leaves as `LoadNoiseFile` asks for. -/
def Complete (w : WalletManager) : Prop :=
  ∀ nf, w.noiseFile = some nf → nf.leaves.length = NOISE_LEAF_COUNT.toNat

/-- **What `SignTransaction` returns**: the same transaction, and proofs of one length for each input
unless it is a coinbase. -/
theorem signTransaction_ret {w w' : WalletManager} {tx signed : Transaction} {saves : Bool}
    (hw : Complete w) (h : w.signTransaction tx saves = (w', signed, .ret true)) :
    signed.inputs.map TxInput.outpoint = tx.inputs.map TxInput.outpoint ∧
      signed.outputs = tx.outputs ∧
      (signed.isCoinbase = true ∨ ∀ input ∈ signed.inputs, input.noiseProof.length = 2928) := by
  have hstage := staged_signStage w tx
  unfold signTransaction at h
  generalize w.signStage tx = result at h hstage
  cases hstage with
  | refused held signed outcome hout =>
    cases h
    exact absurd rfl hout
  | coinbase held seed signed hsigned hcoinbase =>
    cases h
    obtain ⟨hspent, hpaid⟩ := signInputs_same w seed tx.inputs.length 0 tx
    rw [hsigned] at hspent hpaid
    exact ⟨hspent, hpaid, .inl hcoinbase⟩
  | proven held seed nf signed proven hseed hnf hsigned hinputs hout hnodup =>
    obtain ⟨hspent, hpaid⟩ := signInputs_same w seed tx.inputs.length 0 tx
    rw [hsigned] at hspent hpaid
    obtain ⟨hsame, hlength⟩ := Proves.inputs hinputs
    have hdepth : treeDepth 33 NOISE_LEAF_COUNT.toNat = 20 := by decide
    rw [hw nf hnf, hdepth] at hlength
    cases saves with
    | false => cases h
    | true =>
      cases h
      exact ⟨hsame.trans hspent, hout.trans hpaid, .inr hlength⟩

end Signed

/-! ## 3. The size -/

section Size

theorem size_ofPubkeyHash (value : Int64) (pubkeyHash : Bytes32) :
    (TxOutput.ofPubkeyHash value pubkeyHash).getSerializedSize = 46 := by
  simp [TxOutput.getSerializedSize, TxOutput.ofPubkeyHash, Script.length_createPayToPubkeyHash,
    compactSizeLen]

theorem size_message_le {message : List UInt8} (h : message.length ≤ MAX_OP_RETURN_SIZE) :
    ({ value := 0, scriptPubKey := Script.createNullData message } : TxOutput).getSerializedSize ≤ 317 := by
  have hmax : MAX_OP_RETURN_SIZE = 300 := rfl
  have hlen := Script.length_createNullData_le message
  unfold TxOutput.getSerializedSize compactSizeLen
  dsimp only
  split
  · omega
  · rw [if_pos (by omega)]
    omega

theorem size_inputs : ∀ {inputs : List TxInput},
    (∀ input ∈ inputs, input.noiseProof.length = 2928) →
    (inputs.map (TxInput.getSerializedSize true)).sum = 3096 * inputs.length
  | [], _ => rfl
  | input :: inputs, h => by
    obtain ⟨hinput, hrest⟩ := List.forall_mem_cons.mp h
    have hsize : input.getSerializedSize true = 3096 := by
      simp [TxInput.getSerializedSize, hinput]
    rw [List.map_cons, List.sum_cons, size_inputs hrest, hsize, List.length_cons]
    omega

end Size

/-! ## 4. What is built, and then signed -/

section Transfers

variable [WalletCrypto] {w w' : WalletManager} {toAddress message : List UInt8} {amount fee : Int64}
  {u : UTXOSet} {chainHeight : UInt32} {poolTxs : List Transaction} {tx : Transaction}
  {seed : Bytes64} {toPubkeyHash : Bytes32} {selected : List (OutPoint × Coin)} {collected : Int64}
  {change : List TxOutput}

omit [WalletCrypto] in
theorem payments_standard (hamount : DUST_THRESHOLD ≤ amount)
    (hmessage : message.length ≤ MAX_OP_RETURN_SIZE) :
    (∀ out ∈ payments amount toPubkeyHash message, 0 ≤ out.value.toInt ∧ out.Standard) ∧
      ((payments amount toPubkeyHash message).map TxOutput.getSerializedSize).sum ≤ 363 := by
  have hnonneg : 0 ≤ amount.toInt := toInt_nonneg (Int64.le_trans (by decide) hamount)
  have hpay : (TxOutput.ofPubkeyHash amount toPubkeyHash).Standard := .inl ⟨toPubkeyHash, rfl, hamount⟩
  unfold payments
  by_cases hempty : message.isEmpty = true
  · rw [if_pos hempty]
    refine ⟨?_, ?_⟩
    · intro out hout
      rw [List.mem_singleton] at hout
      subst hout
      exact ⟨hnonneg, hpay⟩
    · simp [size_ofPubkeyHash]
  · rw [if_neg hempty]
    have hdata : ({ value := 0, scriptPubKey := Script.createNullData message } : TxOutput).Standard :=
      .inr ⟨message, by simpa using hempty, hmessage, rfl⟩
    refine ⟨?_, ?_⟩
    · refine List.forall_mem_cons.mpr ⟨⟨hnonneg, hpay⟩, ?_⟩
      intro out hout
      rw [List.mem_singleton] at hout
      subst hout
      exact ⟨le_refl _, hdata⟩
    · have hsize := size_message_le hmessage
      simp only [List.map_cons, List.map_nil, List.sum_cons, List.sum_nil, size_ofPubkeyHash]
      omega

theorem change_standard {left : Int64} {w₁ : WalletManager}
    (h : w.changeOutputs left = .ok (w₁, change)) :
    (∀ out ∈ change, 0 ≤ out.value.toInt ∧ out.Standard) ∧
      (change.map TxOutput.getSerializedSize).sum ≤ 46 := by
  rcases (changeOutputs_ok h).2 with ⟨_, rfl⟩ | ⟨hmore, pubkeyHash, rfl⟩
  · refine ⟨?_, Nat.zero_le _⟩
    intro out hout
    cases hout
  · refine ⟨?_, ?_⟩
    · intro out hout
      rw [List.mem_singleton] at hout
      subst hout
      have hle : DUST_THRESHOLD ≤ left := Int64.le_of_lt hmore
      exact ⟨toInt_nonneg (Int64.le_trans (by decide) hle), .inl ⟨pubkeyHash, rfl, hle⟩⟩
    · simp [size_ofPubkeyHash]

/-- **The outputs of a transfer pass**, and are small. -/
theorem Created.outputs_standard (h : Created w toAddress amount fee u chainHeight poolTxs message w' tx
    seed toPubkeyHash selected collected change) (hu : Sane u) :
    (∀ out ∈ tx.outputs, MoneyRange out.value ∧ out.Standard) ∧ tx.valueOut ≤ MAX_MONEY.toInt ∧
      (tx.outputs.map TxOutput.getSerializedSize).sum ≤ 409 := by
  obtain ⟨hdust, _, _, hmessage, _⟩ := checkRequest_ok h.request
  obtain ⟨w₁, hw₁, _⟩ := h.changed
  obtain ⟨hpayments, hpaysize⟩ := @payments_standard message amount toPubkeyHash hdust hmessage
  obtain ⟨hchange, hchangesize⟩ := change_standard hw₁
  have htotal : tx.valueOut ≤ MAX_MONEY.toInt := by
    have hworth := hu.worthOf_le h.offered
    have hin := valueIn_eq h.inputs h.offered
    obtain ⟨dust, hdust₀, _, hpaid⟩ := h.fee_eq (h.noOverflow hu)
    have hmin : MIN_TX_FEE.toInt = 1000 := by decide
    have hfee := h.amounts.2
    omega
  have hall : ∀ out ∈ tx.outputs, 0 ≤ out.value.toInt ∧ out.Standard := by
    rw [h.outputs]
    exact List.forall_mem_append.mpr ⟨hpayments, hchange⟩
  refine ⟨?_, htotal, ?_⟩
  · intro out hout
    refine ⟨⟨(hall out hout).1, le_trans ?_ htotal⟩, (hall out hout).2⟩
    refine List.single_le_sum ?_ _ (List.mem_map_of_mem hout)
    intro x hx
    obtain ⟨o, ho, rfl⟩ := List.mem_map.mp hx
    exact (hall o ho).1
  · rw [h.outputs, List.map_append, List.sum_append]
    omega

/-- A transfer that was built and signed passes exactly when it has at most 32 inputs. -/
theorem Created.checkTransaction_signed {v v' : WalletManager} {signed : Transaction} {saves : Bool}
    (h : Created w toAddress amount fee u chainHeight poolTxs message w' tx seed toPubkeyHash selected
      collected change) (hu : Sane u)
    (hnull : ∀ utxo ∈ w.spendable u chainHeight poolTxs, utxo.1.txHash.isZero = false) (hv : Complete v)
    (hsign : v.signTransaction tx saves = (v', signed, .ret true)) :
    TxValidation.checkTransaction signed = .ok () ↔ selected.length ≤ 32 := by
  obtain ⟨hspent, hpaid, hproofs⟩ := signTransaction_ret hv hsign
  have houtpoints := hspent.trans (map_outpoint_of_inputs h.inputs)
  obtain ⟨hstandard, htotal, hsmall⟩ := h.outputs_standard hu
  have hlength : signed.inputs.length = selected.length := by
    have := congrArg List.length houtpoints
    rwa [List.length_map, List.length_map] at this
  have hne : signed.inputs ≠ [] := by
    rw [← List.length_pos_iff, hlength, List.length_pos_iff]
    exact h.selected_ne_nil
  have hnull' : ∀ input ∈ signed.inputs, input.prevTxHash.isZero = false := by
    intro input hinput
    have hmem : input.outpoint ∈ selected.map Prod.fst := houtpoints ▸ List.mem_map_of_mem hinput
    obtain ⟨utxo, hutxo, ho⟩ := List.mem_map.mp hmem
    rw [h.selects.take] at hutxo
    have hzero := hnull utxo ((List.take_sublist _ _).subset hutxo)
    rwa [ho] at hzero
  have hout : signed.outputs ≠ [] := by
    rw [hpaid, h.outputs]
    exact List.append_ne_nil_of_left_ne_nil (List.cons_ne_nil _ _) _
  have hcheck : TxValidation.checkTransaction signed = TxValidation.checkTxSize signed := by
    refine TxValidation.checkTransaction_eq_checkTxSize hne ?_ hnull' hout ?_ ?_
    · rw [houtpoints]
      exact h.offered.nodup
    · rw [hpaid]
      exact hstandard
    · rw [Transaction.valueOut, hpaid]
      exact htotal
  have hlong : ∀ input ∈ signed.inputs, input.noiseProof.length = 2928 := by
    rcases hproofs with hcoinbase | hproofs
    · have hnot := Transaction.isCoinbase_eq_false hnull'
      rw [hnot] at hcoinbase
      exact absurd hcoinbase Bool.false_ne_true
    · exact hproofs
  have hsize : signed.getSerializedSize true =
      20 + 3096 * selected.length + (tx.outputs.map TxOutput.getSerializedSize).sum := by
    rw [Transaction.getSerializedSize, size_inputs hlong, hlength, hpaid]
    omega
  have hmax : Transaction.MAX_TX_SIZE = 100000 := rfl
  rw [hcheck]
  unfold TxValidation.checkTxSize
  constructor
  · intro hok
    by_contra hmany
    rw [if_pos (by omega)] at hok
    cases hok
  · intro hfew
    rw [if_neg (by omega)]

/-- **A transfer that was built and signed passes `CheckTransaction` if and only if the first 32
coins on offer cover the amount and the fee.**  The UTXO set is one a node can have, no coin on offer
is recorded under the null hash, and the noise file of the wallet that signs is complete. -/
theorem checkTransaction_iff {v v' : WalletManager} {signed : Transaction} {saves : Bool} (hu : Sane u)
    (hnull : ∀ utxo ∈ w.spendable u chainHeight poolTxs, utxo.1.txHash.isZero = false) (hv : Complete v)
    (hcreate : w.createTransaction toAddress amount fee u chainHeight poolTxs message = (w', .ret tx))
    (hsign : v.signTransaction tx saves = (v', signed, .ret true)) :
    TxValidation.checkTransaction signed = .ok () ↔
      amount.toInt + fee.toInt ≤ worthOf ((w.spendable u chainHeight poolTxs).take 32) := by
  obtain ⟨seed, toPubkeyHash, selected, collected, change, hcreated⟩ := createTransaction_ret hcreate
  rw [hcreated.checkTransaction_signed hu hnull hv hsign, hcreated.length_le_iff hu 32]

end Transfers

/-! ## 5. A purse that is signed -/

section Purse

theorem modify_eq_self {α : Type} {f : α → α} : ∀ {l : List α} (i : Nat), (∀ a ∈ l, f a = a) →
    l.modify i f = l
  | [], i, _ => by cases i <;> rfl
  | a :: l, 0, h => by simp [h a (List.mem_cons_self ..)]
  | a :: l, i + 1, h => by
    simp [modify_eq_self i fun b hb => h b (List.mem_cons_of_mem _ hb)]

/-- The keys of `plainCrypto` sign with zeros, so a transfer is signed as it is. -/
theorem signInput_transfer (n : Nat) (amount : Int64) (i : Nat) (key : Bytes32) :
    @signInput plainCrypto (transfer n amount) i key = transfer n amount := by
  have hsame : (transfer n amount).inputs.modify i (fun input =>
      { input with
        signature := plainCrypto.sign key ((transfer n amount).getSignatureHash i).data
        pubkey := plainCrypto.getPublicKey key }) = (transfer n amount).inputs := by
    refine modify_eq_self i ?_
    intro input hinput
    obtain ⟨k, _, rfl⟩ := List.mem_map.mp hinput
    rfl
  unfold signInput
  congr 1

/-- **The payer signs a transfer** as it is, with or without more addresses. -/
theorem signInputs_transfer {w : WalletManager} {more : List WalletAddress}
    (haddresses : w.addresses = payer.addresses ++ more) (hkps : w.noiseKps = zerosKps) (seed : Bytes64)
    (n : Nat) (amount : Int64) : ∀ k i : Nat,
    @signInputs plainCrypto w seed k i (transfer n amount) = (transfer n amount, true)
  | 0, i => rfl
  | k + 1, i => by
    unfold signInputs
    cases hinput : (transfer n amount).inputs[i]? with
    | none => rfl
    | some input =>
      have hpubkey : input.pubkey = plainCrypto.getPublicKey FixedBytes.zero := by
        obtain ⟨j, _, rfl⟩ := List.mem_map.mp (List.mem_of_getElem? hinput)
        rfl
      have hfind : (w.addresses.find? fun addr =>
          Transaction.noiseBoundHash input.pubkey w.noiseKps = addr.pubkeyHash) =
          payer.addresses.head? := by
        rw [hpubkey, hkps, noiseBoundHash_payer, haddresses]
        simp [payer]
      dsimp only
      rw [hfind]
      dsimp only [payer, List.head?_cons]
      rw [signInput_transfer]
      exact signInputs_transfer haddresses hkps seed n amount k (i + 1)

theorem wantedLeaves_eq (txHash kps : Bytes32) : ∀ {inputs : List TxInput} (i : Nat),
    (∀ input ∈ inputs, input.kps = kps) → wantedLeaves txHash i inputs =
      (List.range' i inputs.length).flatMap fun j =>
        deriveLeafIndices txHash kps (UInt32.ofNat j) NOISE_PROOFS_PER_INPUT NOISE_LEAF_COUNT
  | [], i, _ => rfl
  | input :: inputs, i, h => by
    obtain ⟨hinput, hrest⟩ := List.forall_mem_cons.mp h
    rw [wantedLeaves, wantedLeaves_eq txHash kps (i + 1) hrest, hinput, List.length_cons,
      List.range'_succ, List.flatMap_cons]

/-- A wallet that has what the payer has. -/
structure LikePayer (w : WalletManager) : Prop where
  locked : w.locked = false
  seed : w.unlockedSeed = some FixedBytes.zero
  loaded : w.noiseLoaded = true
  file : w.noiseFile = some zerosFile
  kps : w.noiseKps = zerosKps
  unused : w.noiseUsed = []
  addresses : ∃ more, w.addresses = payer.addresses ++ more

theorem LikePayer.complete {w : WalletManager} (h : LikePayer w) : Complete w := by
  intro nf hnf
  rw [h.file] at hnf
  cases hnf
  exact length_zerosFile

/-- **A transfer is signed** when its leaves are distinct. -/
theorem LikePayer.signTransaction_transfer {w : WalletManager} (h : LikePayer w) {n : Nat} {amount : Int64}
    (hnodup : (wantedLeaves (transfer n amount).getHash 0 (transfer n amount).inputs).Nodup) :
    ∃ w' signed, @signTransaction plainCrypto w (transfer n amount) true = (w', signed, .ret true) := by
  obtain ⟨more, hmore⟩ := h.addresses
  refine @signTransaction_ok plainCrypto w _ _ _ _ h.locked h.seed h.loaded h.file
    (signInputs_transfer hmore h.kps _ n amount _ _) ?_ ?_ hnodup ?_
  · refine Transaction.isCoinbase_eq_false ?_
    intro input hinput
    obtain ⟨j, _, rfl⟩ := List.mem_map.mp hinput
    exact (by decide : (FixedBytes.ofNat 32 1 : Bytes32).isZero = false)
  · have hcount := (transfer n amount).inputs_le
    have hmax : Transaction.MAX_INPUTS = 1000 := rfl
    have hleaves : NOISE_LEAF_COUNT.toNat = 1048576 := rfl
    have hused : zerosFile.countUsed = 0 := rfl
    rw [NoiseFile.getRemaining, length_zerosFile, hused]
    omega
  · intro leaf hleaf
    refine ⟨?_, ?_⟩
    · rw [isNoiseLeafUsed, h.unused]
      rfl
    · rw [length_zerosFile]
      exact UInt32.lt_iff_toNat_lt.mp (wantedLeaves_lt hleaf)

theorem likePayer_of_created [WalletCrypto] {toAddress message : List UInt8} {amount fee : Int64} {u : UTXOSet}
    {chainHeight : UInt32} {poolTxs : List Transaction} {w' : WalletManager} {tx : Transaction}
    (h : payer.createTransaction toAddress amount fee u chainHeight poolTxs message =
      (w', .ret tx)) : LikePayer w' := by
  obtain ⟨seed, toPubkeyHash, selected, collected, change, hcreated⟩ := createTransaction_ret h
  obtain ⟨w₁, hw₁, rfl⟩ := hcreated.changed
  obtain ⟨more, nextChangeIndex, rfl⟩ := (changeOutputs_ok hw₁).1
  exact ⟨rfl, rfl, rfl, rfl, rfl, rfl, more, rfl⟩

theorem wantedLeaves_transfer (n : Nat) (amount : Int64) (txHash : Bytes32) :
    wantedLeaves txHash 0 (transfer n amount).inputs =
      (List.range' 0 (transfer n amount).inputs.length).flatMap fun j =>
        deriveLeafIndices txHash zerosKps (UInt32.ofNat j) NOISE_PROOFS_PER_INPUT NOISE_LEAF_COUNT := by
  refine wantedLeaves_eq txHash zerosKps 0 ?_
  intro input hinput
  obtain ⟨j, _, rfl⟩ := List.mem_map.mp hinput
  rfl

/-- Thirty-three coins of 1000. -/
def manyCoins : UTXOSet := purse (List.replicate 33 1000)

theorem createTransaction_many_coins :
    (@createTransaction plainCrypto payer payee 32000 1000 manyCoins 0 [] []).2 =
      .ret (transfer 33 32000) := by
  have hrequest : payer.checkRequest payee 32000 1000 [] =
      .ok (FixedBytes.zero, FixedBytes.ofNat 32 1) := by
    rw [checkRequest, decodeAddress_payee]
    decide +kernel
  unfold createTransaction
  rw [hrequest]
  decide +kernel

theorem getHash_many_coins : (transfer 33 32000).getHash =
    FixedBytes.ofNat 32 0xa8f738c5dd808af832d2adc4f0f414aa212220136bae51027aea57b0ec306ac7 := by
  simp only [Transaction.getHash, sha256_eq]
  decide +kernel

theorem nodup_many_coins :
    (wantedLeaves (transfer 33 32000).getHash 0 (transfer 33 32000).inputs).Nodup := by
  rw [getHash_many_coins, wantedLeaves_transfer]
  simp only [deriveLeafIndices, deriveLeafIndex, sha256_eq]
  decide +kernel

theorem sane_many_coins : Sane manyCoins := sane_openDB (by decide +kernel) (by decide +kernel)

/-- **A transfer of 33 coins is built and signed, and can never be valid.** -/
theorem too_large_once_signed : ∃ w' v' signed,
    @createTransaction plainCrypto payer payee 32000 1000 manyCoins 0 [] [] =
      (w', .ret (transfer 33 32000)) ∧
    @signTransaction plainCrypto w' (transfer 33 32000) true = (v', signed, .ret true) ∧
    TxValidation.checkTransaction signed ≠ .ok () := by
  have hcall : @createTransaction plainCrypto payer payee 32000 1000 manyCoins 0 [] [] =
      ((@createTransaction plainCrypto payer payee 32000 1000 manyCoins 0 [] []).1,
        .ret (transfer 33 32000)) := Prod.ext rfl createTransaction_many_coins
  have hpayer := @likePayer_of_created plainCrypto _ _ _ _ _ _ _ _ _ hcall
  obtain ⟨v', signed, hsign⟩ := hpayer.signTransaction_transfer nodup_many_coins
  refine ⟨_, v', signed, hcall, hsign, ?_⟩
  obtain ⟨seed, toPubkeyHash, selected, collected, change, hcreated⟩ :=
    @createTransaction_ret plainCrypto _ _ _ _ _ _ _ _ _ _ hcall
  have hnull : ∀ utxo ∈ payer.spendable manyCoins 0 [], utxo.1.txHash.isZero = false := by
    decide +kernel
  rw [Ne, @Created.checkTransaction_signed plainCrypto _ _ _ _ _ _ _ _ _ _ _ _ _ _ _ _ _ _ _
    hcreated sane_many_coins hnull hpayer.complete hsign]
  have hlength := (@Created.inputs plainCrypto _ _ _ _ _ _ _ _ _ _ _ _ _ _ _ hcreated).length_eq
  have hcount : (transfer 33 32000).inputs.length = 33 := by decide
  omega

theorem nodup_one_coin :
    (wantedLeaves (transfer 1 1000).getHash 0 (transfer 1 1000).inputs).Nodup := by
  have hhash : (transfer 1 1000).getHash =
      FixedBytes.ofNat 32 0xd3ebc987020729338be27dfe7d43f404d9a2793daafb9450d4916e4d40525c69 := by
    simp only [Transaction.getHash, sha256_eq]
    decide +kernel
  rw [hhash, wantedLeaves_transfer]
  simp only [deriveLeafIndices, deriveLeafIndex, sha256_eq]
  decide +kernel

/-- One coin covers the amount and the fee. -/
theorem checkTransaction_one_coin : ∃ w' v' signed,
    @createTransaction plainCrypto payer payee 1000 1000 (purse [2000]) 0 [] [] =
      (w', .ret (transfer 1 1000)) ∧
    @signTransaction plainCrypto w' (transfer 1 1000) true = (v', signed, .ret true) ∧
    TxValidation.checkTransaction signed = .ok () := by
  have hcall : @createTransaction plainCrypto payer payee 1000 1000 (purse [2000]) 0 [] [] =
      ((@createTransaction plainCrypto payer payee 1000 1000 (purse [2000]) 0 [] []).1,
        .ret (transfer 1 1000)) := Prod.ext rfl createTransaction_one_coin
  have hpayer := @likePayer_of_created plainCrypto _ _ _ _ _ _ _ _ _ hcall
  obtain ⟨v', signed, hsign⟩ := hpayer.signTransaction_transfer nodup_one_coin
  have hnull : ∀ utxo ∈ payer.spendable (purse [2000]) 0 [], utxo.1.txHash.isZero = false := by
    decide +kernel
  have henough : (1000 : Int64).toInt + (1000 : Int64).toInt ≤
      worthOf ((payer.spendable (purse [2000]) 0 []).take 32) := by
    decide +kernel
  exact ⟨_, v', signed, hcall, hsign, (@checkTransaction_iff plainCrypto _ _ _ _ _ _ _ _ _ _ _ _ _ _
    sane_one_coin hnull hpayer.complete hcall hsign).mpr henough⟩

end Purse

end WalletManager

end Moneu
