/-
# The map of held outpoints

What `mHeldOutpoints` says of an outpoint after each of the functions that edit it.  `ReleaseOutpointsFor`
and the rename at the end of `SignTransaction` go BY ID, `ReleaseOutpointsOf` goes BY OUTPOINT, and
`CreateTransaction` enters what it selects.  Each is one lemma about `lookup`.
-/
import Moneu.Node.Admission
import Moneu.Wallet.Signing
import Moneu.Wallet.Transfer

namespace Moneu

open NetParams

namespace WalletManager

/-! ## 1. The edits -/

section Map

variable {w : WalletManager}

theorem lookup_foldl_releaseFor (txid : Bytes32) (o : OutPoint) :
    ∀ (keys : List OutPoint) (held : AList fun _ : OutPoint => Bytes32),
      (keys.foldl (fun held o => if held.lookup o = some txid then held.erase o else held) held).lookup
          o =
        if o ∈ keys ∧ held.lookup o = some txid then none else held.lookup o
  | [], held => by simp
  | key :: keys, held => by
    rw [List.foldl_cons, lookup_foldl_releaseFor txid o keys]
    by_cases hkey : o = key
    · subst hkey
      by_cases hid : held.lookup o = some txid
      · simp [hid, AList.lookup_erase]
      · simp [hid]
    · have hlookup : (if held.lookup key = some txid then held.erase key else held).lookup o =
          held.lookup o := by
        split
        · exact AList.lookup_erase_ne hkey
        · rfl
      rw [hlookup]
      simp [hkey]

theorem lookup_releaseOutpointsFor [WalletCrypto] (txid : Bytes32) (o : OutPoint) :
    (w.releaseOutpointsFor txid).heldOutpoints.lookup o =
      if w.heldOutpoints.lookup o = some txid then none else w.heldOutpoints.lookup o := by
  have hfold := lookup_foldl_releaseFor txid o w.heldOutpoints.keys w.heldOutpoints
  refine hfold.trans ?_
  by_cases hid : w.heldOutpoints.lookup o = some txid
  · have hmem : o ∈ w.heldOutpoints.keys :=
      AList.mem_keys.mp (AList.lookup_isSome.mp (by rw [hid]; rfl))
    rw [if_pos ⟨hmem, hid⟩, if_pos hid]
  · rw [if_neg (fun h => hid h.2), if_neg hid]

theorem lookup_releaseAll [WalletCrypto] (o : OutPoint) : ∀ (txs : List Transaction) (w : WalletManager),
    (w.releaseAll txs).heldOutpoints.lookup o =
      if ∃ txid ∈ txs.map Transaction.getHash, w.heldOutpoints.lookup o = some txid then none
      else w.heldOutpoints.lookup o
  | [], w => by simp [releaseAll]
  | tx :: txs, w => by
    have hrest := lookup_releaseAll o txs (w.releaseOutpointsFor tx.getHash)
    rw [lookup_releaseOutpointsFor] at hrest
    refine Eq.trans hrest ?_
    by_cases hid : w.heldOutpoints.lookup o = some tx.getHash
    · simp [hid]
    · simp [hid]

theorem releaseAll_append [WalletCrypto] (txs txs' : List Transaction) :
    w.releaseAll (txs ++ txs') = (w.releaseAll txs).releaseAll txs' :=
  List.foldl_append

theorem lookup_releaseOutpointsOf (tx : Transaction) (o : OutPoint) :
    (w.releaseOutpointsOf tx).heldOutpoints.lookup o =
      if o ∈ Mempool.outpoints tx then none else w.heldOutpoints.lookup o := by
  have hfold := Index.lookup_foldl_erase (tx.inputs.map TxInput.outpoint) w.heldOutpoints
    (k := o)
  rw [List.foldl_map] at hfold
  exact hfold

theorem lookup_foldl_rename (old new : Bytes32) (hne : new ≠ old) (o : OutPoint) :
    ∀ (keys : List OutPoint) (held : AList fun _ : OutPoint => Bytes32),
      (keys.foldl (fun held o => if held.lookup o = some old then held.insert o new else held)
          held).lookup o =
        if o ∈ keys ∧ held.lookup o = some old then some new else held.lookup o
  | [], held => by simp
  | key :: keys, held => by
    rw [List.foldl_cons, lookup_foldl_rename old new hne o keys]
    by_cases hkey : o = key
    · subst hkey
      by_cases hid : held.lookup o = some old
      · simp [hid, hne]
      · simp [hid]
    · have hlookup : (if held.lookup key = some old then held.insert key new else held).lookup o =
          held.lookup o := by
        split
        · exact AList.lookup_insert_ne hkey
        · rfl
      rw [hlookup]
      simp [hkey]

theorem lookup_renameHeld (old new : Bytes32) (o : OutPoint) :
    (w.renameHeld old new).heldOutpoints.lookup o =
      if w.heldOutpoints.lookup o = some old then some new else w.heldOutpoints.lookup o := by
  unfold renameHeld
  split
  case isTrue heq =>
    split
    case isTrue hid => rw [hid, heq]
    case isFalse => rfl
  case isFalse hne =>
    have hfold := lookup_foldl_rename old new hne o w.heldOutpoints.keys w.heldOutpoints
    refine hfold.trans ?_
    by_cases hid : w.heldOutpoints.lookup o = some old
    · have hmem : o ∈ w.heldOutpoints.keys :=
        AList.mem_keys.mp (AList.lookup_isSome.mp (by rw [hid]; rfl))
      rw [if_pos ⟨hmem, hid⟩, if_pos hid]
    · rw [if_neg (fun h => hid h.2), if_neg hid]

end Map

/-! ## 2. The calls -/

section Calls

variable [WalletCrypto] {w w' : WalletManager}

theorem heldOutpoints_of_threw {toAddress message : List UInt8} {amount fee : Int64} {u : UTXOSet}
    {chainHeight : UInt32} {poolTxs : List Transaction} {what : String}
    (h : w.createTransaction toAddress amount fee u chainHeight poolTxs message = (w', .threw what)) :
    w'.heldOutpoints = w.heldOutpoints := by
  unfold createTransaction at h
  split at h
  case h_1 => rw [← (Prod.mk.inj h).1]
  case h_2 =>
    dsimp only at h
    split at h
    case isTrue => rw [← (Prod.mk.inj h).1]
    case isFalse =>
      split at h
      case h_1 => rw [← (Prod.mk.inj h).1]
      case h_2 =>
        split at h
        case isTrue => rw [← (Prod.mk.inj h).1]
        case isFalse =>
          split at h
          case h_1 => rw [← (Prod.mk.inj h).1]
          case h_2 hchange =>
            obtain ⟨more, nextChangeIndex, rfl⟩ := (changeOutputs_ok hchange).1
            split at h
            case h_1 => rw [← (Prod.mk.inj h).1]
            case h_2 => cases (Prod.mk.inj h).2

/-- **`CreateTransaction` holds the inputs of what it returns**, and none of them was held. -/
theorem lookup_heldOutpoints_of_ret {toAddress message : List UInt8} {amount fee : Int64} {u : UTXOSet}
    {chainHeight : UInt32} {poolTxs : List Transaction} {tx : Transaction}
    (h : w.createTransaction toAddress amount fee u chainHeight poolTxs message = (w', .ret tx)) :
    (∀ o ∈ Mempool.outpoints tx, w.heldOutpoints.lookup o = none) ∧
      ∀ o, w'.heldOutpoints.lookup o =
        if o ∈ Mempool.outpoints tx then some tx.getHash else w.heldOutpoints.lookup o := by
  obtain ⟨seed, toPubkeyHash, selected, collected, change, hcreated⟩ := createTransaction_ret h
  have hinputs : Mempool.outpoints tx = selected.map Prod.fst := map_outpoint_of_inputs hcreated.inputs
  obtain ⟨w₁, hw₁, rfl⟩ := hcreated.changed
  obtain ⟨more, nextChangeIndex, rfl⟩ := (changeOutputs_ok hw₁).1
  constructor
  · intro o ho
    rw [hinputs] at ho
    obtain ⟨utxo, hutxo, rfl⟩ := List.mem_map.mp ho
    exact AList.lookup_eq_none.mpr (hcreated.eligible hutxo).free
  · intro o
    rw [lookup_hold, hinputs]

omit [WalletCrypto] in
theorem serialize_of_proves {nf : NoiseFile} {inputs proven : List TxInput}
    (h : List.Forall₂ (Proves w nf) inputs proven) :
    proven.flatMap (TxInput.serialize false) = inputs.flatMap (TxInput.serialize false) := by
  induction h with
  | nil => rfl
  | cons hinput _ ih =>
    obtain ⟨proofs, leaves, _, _, _, rfl⟩ := hinput
    rw [List.flatMap_cons, List.flatMap_cons, ih]
    rfl

omit [WalletCrypto] in
theorem getHash_of_proves {nf : NoiseFile} {inputs : List TxInput} {signed proven : Transaction}
    (hinputs : List.Forall₂ (Proves w nf) signed.inputs inputs)
    (hbuild : Transaction.build signed.version inputs signed.outputs signed.locktime = .ok proven) :
    proven.getHash = signed.getHash := by
  unfold Transaction.build at hbuild
  split at hbuild
  case isFalse => cases hbuild
  case isTrue =>
    rw [dif_pos signed.outputs_le] at hbuild
    cases hbuild
    unfold Transaction.getHash Transaction.serialize
    dsimp only
    rw [serialize_of_proves hinputs, ← hinputs.length_eq]

omit [WalletCrypto] in
theorem heldOutpoints_consume (nf : NoiseFile) (consumed : List UInt32) :
    (w.consume nf consumed).heldOutpoints = w.heldOutpoints := by
  obtain ⟨used, file, hconsume⟩ := consume_eq w nf consumed
  rw [hconsume]

/-- What signing makes of the inputs and of the map; `done` says whether it got to the end. -/
def Renames (w : WalletManager) (tx : Transaction) (w' : WalletManager) (signed : Transaction)
    (done : Prop) : Prop :=
  Mempool.outpoints signed = Mempool.outpoints tx ∧
    ∃ id, (done → id = signed.getHash) ∧ ∀ o, w'.heldOutpoints.lookup o =
      if w.heldOutpoints.lookup o = some tx.getHash then some id else w.heldOutpoints.lookup o

omit [WalletCrypto] in
theorem renames_self {tx signed : Transaction} {done : Prop}
    (hinputs : Mempool.outpoints signed = Mempool.outpoints tx) (hdone : ¬ done) :
    Renames w tx w signed done := by
  refine ⟨hinputs, tx.getHash, fun h => absurd h hdone, fun o => ?_⟩
  split
  case isTrue heq => exact heq
  case isFalse => rfl

omit [WalletCrypto] in
theorem renames_renameHeld {tx signed : Transaction} {done : Prop}
    (hinputs : Mempool.outpoints signed = Mempool.outpoints tx) :
    Renames w tx (w.renameHeld tx.getHash signed.getHash) signed done :=
  ⟨hinputs, signed.getHash, fun _ => rfl, lookup_renameHeld tx.getHash signed.getHash⟩

theorem renames_signStage (w : WalletManager) (tx : Transaction) :
    Renames w tx (w.signStage tx).1 (w.signStage tx).2.1
      ((w.signStage tx).2.2 ≠ .ended (.ret false) ∧
        ∀ what, (w.signStage tx).2.2 ≠ .ended (.threw what)) := by
  unfold signStage
  split
  case h_2 => exact renames_self rfl (by simp)
  case h_1 seed _ _ =>
    split
    case h_2 => exact renames_self rfl (by simp)
    case h_1 nf _ _ =>
      have hsame := (signInputs_same w seed tx.inputs.length 0 tx).1
      split
      case h_1 signed hsigned =>
        rw [hsigned] at hsame
        exact renames_self hsame (by simp)
      case h_2 signed hsigned =>
        rw [hsigned] at hsame
        dsimp only
        split
        case isTrue => exact renames_renameHeld hsame
        case isFalse =>
          split
          case isTrue => exact renames_renameHeld hsame
          case isFalse =>
            split
            case h_1 => exact renames_renameHeld hsame
            case h_2 inputs consumed hprove =>
              split
              case h_1 => exact renames_renameHeld hsame
              case h_2 proven hbuild =>
                have hproves := (proveInputs_spec hprove).1
                have hhash := getHash_of_proves hproves hbuild
                have hkept : Mempool.outpoints proven = Mempool.outpoints signed := by
                  rw [Mempool.outpoints, (Transaction.build_ok hbuild).1, (Proves.inputs hproves).1]
                  rfl
                refine ⟨hkept.trans hsame, signed.getHash, fun _ => hhash.symm, fun o => ?_⟩
                rw [heldOutpoints_consume, lookup_renameHeld]

/-- **`SignTransaction` keeps the inputs** and moves what is held for the transaction to another id,
which is the new txid when it succeeds. -/
theorem renames_signTransaction {tx signed : Transaction} {saves : Bool} {outcome : Outcome Bool}
    (h : w.signTransaction tx saves = (w', signed, outcome)) :
    Renames w tx w' signed (outcome = .ret true) := by
  obtain ⟨hinputs, id, hid, hmoved⟩ := renames_signStage w tx
  unfold signTransaction at h
  rcases hstage : w.signStage tx with ⟨w₁, tx₁, stage⟩
  rw [hstage] at h hinputs hid hmoved
  cases stage with
  | ended outcome₁ =>
    cases h
    refine ⟨hinputs, id, fun hret => hid ?_, hmoved⟩
    rw [hret]
    simp
  | saving =>
    cases h
    exact ⟨hinputs, id, fun _ => hid (by simp), hmoved⟩

end Calls

end WalletManager

end Moneu
