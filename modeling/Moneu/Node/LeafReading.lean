/-
# One reading of the leaves

`VerifyTransactionSignatures` reads as many proofs as the transaction calls for and demands that the
blob ends there.  Four other loops read the same blob until it ends: `ExtractLeafKeys` of the pool, and
`ApplyTransaction`, `ApplyTransactionForReplay` and `UndoTransaction` of the UTXO set.

None of the four compares what it reads with what the transaction calls for.  They need not: on a
transaction that was verified all of them see the list of `Transaction.calledLeaves`
(`one_reading_of_the_leaves`).

The loops of the UTXO set work on coins between the leaves.  `Touches` keeps the leaves of such a run
in the order in which they were marked or unmarked.
-/
import Moneu.Consensus.Mempool
import Moneu.Wallet.Payment

namespace Moneu

open NetParams

/-! ## 1. The leaves that are called for -/

namespace Transaction

/-- The leaves that input number `i` has to reveal. -/
def calledBy (tx : Transaction) (input : TxInput) (i : Nat) : List NoiseLeafKey :=
  (deriveLeafIndices tx.getHash input.kps (UInt32.ofNat i) NOISE_PROOFS_PER_INPUT
    NOISE_LEAF_COUNT).map fun leafIndex => { kps := input.kps, leafIndex }

/-- The leaves that the inputs have to reveal, input by input. -/
def calledLeaves (tx : Transaction) : List NoiseLeafKey :=
  tx.inputs.zipIdx.flatMap fun item => tx.calledBy item.1 item.2

theorem length_calledBy (tx : Transaction) (input : TxInput) (i : Nat) :
    (tx.calledBy input i).length = NOISE_PROOFS_PER_INPUT.toNat := by
  rw [calledBy, List.length_map, WalletManager.length_deriveLeafIndices]

theorem Proved.leaves_eq {tx : Transaction} (h : tx.Proved) : tx.leaves = tx.calledLeaves := by
  have hfst : tx.inputs = tx.inputs.zipIdx.map Prod.fst := (List.zipIdx_map_fst ..).symm
  have hleaves : tx.leaves = tx.inputs.zipIdx.flatMap fun item => item.1.leaves := by
    rw [leaves]
    nth_rewrite 1 [hfst]
    rw [List.flatMap_map]
  rw [hleaves, calledLeaves]
  refine List.flatMap_congr fun item hitem => ?_
  have hat : tx.inputs[item.2]? = some item.1 := List.mk_mem_zipIdx_iff_getElem?.mp hitem
  exact (h item.2 item.1 hat).2.2

end Transaction

/-- **`ExtractLeafKeys`** returns the leaves when every blob parses. -/
theorem Mempool.extractLeafKeysFrom_eq : ∀ {inputs : List TxInput},
    (∀ input ∈ inputs, (NoiseProof.readAll input.noiseProof).2 = none) →
      extractLeafKeysFrom inputs = (inputs.flatMap TxInput.leaves, true)
  | [], _ => rfl
  | input :: inputs, hparse => by
    obtain ⟨hinput, hinputs⟩ := List.forall_mem_cons.mp hparse
    simp only [extractLeafKeysFrom, hinput, extractLeafKeysFrom_eq hinputs, List.flatMap_cons]
    rfl

/-! ## 2. Runs that touch leaves -/

namespace UTXOSet

/-- The marks of the set: what is taken for spent, what is to be written and what is to be erased. -/
def leafSets (u : UTXOSet) : Finset NoiseLeafKey × Finset NoiseLeafKey × Finset NoiseLeafKey :=
  (u.spentLeafCache, u.spentLeafDirty, u.erasedLeafDirty)

/-- The run from `u` to `v` does `f` to the leaves `keys`, one after the other; between them it leaves
the marks alone. -/
inductive Touches (f : UTXOSet → NoiseLeafKey → UTXOSet) : List NoiseLeafKey → UTXOSet → UTXOSet → Prop
  | done (u : UTXOSet) : Touches f [] u u
  | coins {keys : List NoiseLeafKey} {u u' v : UTXOSet} (h : u'.leafSets = u.leafSets)
      (rest : Touches f keys u' v) : Touches f keys u v
  | leaf {key : NoiseLeafKey} {keys : List NoiseLeafKey} {u v : UTXOSet}
      (rest : Touches f keys (f u key) v) : Touches f (key :: keys) u v

namespace Touches

variable {f : UTXOSet → NoiseLeafKey → UTXOSet} {keys keys' : List NoiseLeafKey} {u v w : UTXOSet}

theorem of_leafSets (h : v.leafSets = u.leafSets) : Touches f [] u v := .coins h (.done v)

theorem foldl : ∀ (keys : List NoiseLeafKey) (u : UTXOSet), Touches f keys u (keys.foldl f u)
  | [], u => .done u
  | key :: keys, u => .leaf (foldl keys (f u key))

theorem trans (h : Touches f keys u v) (h' : Touches f keys' v w) : Touches f (keys ++ keys') u w := by
  induction h with
  | done u => exact h'
  | coins hsame _ ih => exact .coins hsame (ih h')
  | leaf _ ih => exact .leaf (ih h')

section Marks

variable (hf : ∀ u u' key, u'.leafSets = u.leafSets → (f u' key).leafSets = (f u key).leafSets)
include hf

theorem foldl_congr : ∀ (keys : List NoiseLeafKey) {u u' : UTXOSet}, u'.leafSets = u.leafSets →
    (keys.foldl f u').leafSets = (keys.foldl f u).leafSets
  | [], _, _, hsame => hsame
  | key :: keys, u, u', hsame => foldl_congr keys (hf u u' key hsame)

/-- **The marks after a run** are those of the leaves it touched, and nothing else. -/
theorem leafSets_eq (h : Touches f keys u v) : v.leafSets = (keys.foldl f u).leafSets := by
  induction h with
  | done u => rfl
  | coins hsame _ ih => rw [ih, foldl_congr hf _ hsame]
  | leaf _ ih => exact ih

end Marks

end Touches

theorem leafSets_mark (u u' : UTXOSet) (key : NoiseLeafKey) (h : u'.leafSets = u.leafSets) :
    (u'.markNoiseLeafSpent key).leafSets = (u.markNoiseLeafSpent key).leafSets := by
  simp only [leafSets, Prod.mk.injEq] at h
  simp only [leafSets, markNoiseLeafSpent, h]

theorem leafSets_unmark (u u' : UTXOSet) (key : NoiseLeafKey) (h : u'.leafSets = u.leafSets) :
    (u'.unmarkNoiseLeafSpent key).leafSets = (u.unmarkNoiseLeafSpent key).leafSets := by
  simp only [leafSets, Prod.mk.injEq] at h
  simp only [leafSets, unmarkNoiseLeafSpent, h]

theorem leafSets_spendCollected (u : UTXOSet) (item : OutPoint × Coin) :
    (u.spendCollected item).leafSets = u.leafSets := by
  unfold spendCollected
  split <;> rfl

theorem leafSets_spendCoin (u : UTXOSet) (o : OutPoint) : (u.spendCoin o).1.leafSets = u.leafSets := by
  unfold spendCoin
  split
  · split <;> rfl
  · split
    · rfl
    · split <;> rfl

theorem leafSets_foldl {α : Type} {step : UTXOSet → α → UTXOSet}
    (hstep : ∀ u a, (step u a).leafSets = u.leafSets) (as : List α) (u : UTXOSet) :
    (as.foldl step u).leafSets = u.leafSets := by
  induction as generalizing u with
  | nil => rfl
  | cons a as ih => rw [List.foldl_cons, ih, hstep]

theorem leafSets_addCoins (coins : List (OutPoint × Coin)) (u : UTXOSet) :
    (u.addCoins coins).leafSets = u.leafSets := by
  unfold addCoins
  exact leafSets_foldl (fun _ _ => by rfl) coins u

/-! ## 3. The three loops of the set -/

/-- **`ApplyTransaction`** marks the leaves of the transaction. -/
theorem touches_applyTransaction {tx : Transaction} {height : UInt32} {u v : UTXOSet} {spent : List Coin}
    (h : u.applyTransaction tx height false = .ok (v, spent)) :
    Touches markNoiseLeafSpent tx.leaves u v := by
  obtain ⟨coins, -, heq⟩ := applyTransaction_eq_ok.mp h
  obtain ⟨rfl, rfl⟩ := Prod.mk.inj heq
  let collected := (tx.inputs.map TxInput.outpoint).zip spent
  have hspent : (collected.foldl spendCollected u).leafSets = u.leafSets :=
    leafSets_foldl leafSets_spendCollected collected u
  have hadded := (Touches.foldl (f := markNoiseLeafSpent) tx.leaves (collected.foldl spendCollected u)).trans
    (Touches.of_leafSets (leafSets_addCoins (tx.created height false) _))
  rw [List.append_nil] at hadded
  exact .coins hspent hadded

theorem markSeen_some : ∀ {keys seen seen' : List NoiseLeafKey} {u v : UTXOSet},
    u.markSeen keys seen = (v, some seen') → Touches markNoiseLeafSpent keys u v
  | [], _, _, u, _, h => by
    cases h
    exact .done u
  | key :: keys, seen, _, u, v, h => by
    unfold markSeen at h
    split at h
    · cases h
    · exact .leaf (markSeen_some h)

theorem touches_replayInputs : ∀ {inputs : List TxInput} {seen : List NoiseLeafKey} {u v : UTXOSet},
    u.replayInputs inputs seen = (v, true) →
      Touches markNoiseLeafSpent (inputs.flatMap TxInput.leaves) u v
  | [], _, u, _, h => by
    cases h
    exact .done u
  | input :: inputs, seen, u, v, h => by
    unfold replayInputs at h
    refine .coins (leafSets_spendCoin u input.outpoint) ?_
    rw [List.flatMap_cons]
    dsimp only at h
    split at h
    case isTrue hempty =>
      rw [TxInput.leaves, List.isEmpty_iff.mp hempty]
      exact touches_replayInputs h
    case isFalse =>
      split at h
      case h_1 => cases h
      case h_2 hmarked =>
        split at h
        · cases h
        · exact (markSeen_some hmarked).trans (touches_replayInputs h)

/-- **`ApplyTransactionForReplay`** marks them too, if it runs to its end. -/
theorem touches_applyTransactionForReplay {tx : Transaction} {height : UInt32} {u v : UTXOSet}
    (h : u.applyTransactionForReplay tx height false = (v, true)) :
    Touches markNoiseLeafSpent tx.leaves u v := by
  unfold applyTransactionForReplay at h
  simp only [Bool.false_eq_true, if_false] at h
  split at h
  case h_1 => cases h
  case h_2 replayed hreplayed =>
    cases h
    have hadded := (touches_replayInputs hreplayed).trans
      (Touches.of_leafSets (leafSets_addCoins (tx.created height false) replayed))
    rwa [List.append_nil] at hadded

theorem touches_restoreInputs : ∀ {inputs : List TxInput} {coins : List Coin} {u v : UTXOSet},
    coins.length = inputs.length → u.restoreInputs inputs coins = (v, true) →
      Touches unmarkNoiseLeafSpent (inputs.flatMap TxInput.leaves) u v
  | [], [], u, _, _, h => by
    cases h
    exact .done u
  | input :: inputs, c :: coins, u, v, hlen, h => by
    unfold restoreInputs at h
    dsimp only at h
    split at h
    · cases h
    · rw [List.flatMap_cons]
      have hrestored : (u.setEntry input.outpoint
          { coin := c.restored, isDirty := true, isNew := false }).leafSets = u.leafSets := rfl
      exact .coins hrestored
        ((Touches.foldl input.leaves _).trans (touches_restoreInputs (Nat.succ.inj hlen) h))

/-- **`UndoTransaction`** unmarks them, if it runs to its end. -/
theorem touches_undoTransaction {tx : Transaction} {coins : List Coin} {u v : UTXOSet}
    (hcb : tx.isCoinbase = false) (hlen : coins.length = tx.inputs.length)
    (h : u.undoTransaction tx coins = (v, true)) : Touches unmarkNoiseLeafSpent tx.leaves u v := by
  unfold undoTransaction at h
  simp only [hcb, hlen, Bool.not_false, ne_eq, not_true_eq_false, if_true, if_false] at h
  have herased : ((outpointsOf tx).foldl eraseCoin u).leafSets = u.leafSets :=
    leafSets_foldl (fun _ _ => by rfl) (outpointsOf tx) u
  exact .coins herased (touches_restoreInputs hlen h)

end UTXOSet

/-! ## 4. One reading -/

open UTXOSet in
/-- **One reading of the leaves.**  On a transaction that `VerifyTransactionSignatures` accepts, the
pool reads the leaves the transaction calls for; applying it and replaying it mark them, undoing it
unmarks them, each in that order and nothing else.  No leaf is called for twice, and each input calls
for `NOISE_PROOFS_PER_INPUT`. -/
theorem one_reading_of_the_leaves [Ed25519] {tx : Transaction} {u : UTXOSet}
    {scope scope' : List NoiseLeafKey} (hcb : tx.isCoinbase = false)
    (h : TxValidation.verifyTransactionSignatures tx u scope = .ok scope') :
    Mempool.extractLeafKeys tx = (tx.calledLeaves, true) ∧
      (∀ (v v' : UTXOSet) (height : UInt32) (spent : List Coin),
        v.applyTransaction tx height false = .ok (v', spent) →
          Touches markNoiseLeafSpent tx.calledLeaves v v' ∧
            v'.leafSets = (v.markAll tx.calledLeaves).leafSets) ∧
      (∀ (v : UTXOSet) (height : UInt32), ∃ v',
        v.applyTransactionForReplay tx height false = (v', true) ∧
          Touches markNoiseLeafSpent tx.calledLeaves v v' ∧
            v'.leafSets = (v.markAll tx.calledLeaves).leafSets) ∧
      (∀ (v : UTXOSet) (spent : List Coin), spent.length = tx.inputs.length → ∃ v',
        v.undoTransaction tx spent = (v', true) ∧
          Touches unmarkNoiseLeafSpent tx.calledLeaves v v' ∧
            v'.leafSets = (v.unmarkAll tx.calledLeaves).leafSets) ∧
      tx.calledLeaves.Nodup ∧
      ∀ (i : Nat) (input : TxInput), tx.inputs[i]? = some input →
        (tx.calledBy input i).length = NOISE_PROOFS_PER_INPUT.toNat := by
  obtain ⟨hproved, hclaims, -⟩ := TxValidation.verifyTransactionSignatures_ok hcb h
  have hnodup := hclaims.nodup
  have hparse : ∀ input ∈ tx.inputs, (NoiseProof.readAll input.noiseProof).2 = none := by
    intro input hinput
    obtain ⟨i, hi⟩ := List.mem_iff_getElem?.mp hinput
    exact (hproved i input hi).2.1
  rw [← hproved.leaves_eq]
  refine ⟨Mempool.extractLeafKeysFrom_eq hparse, fun v v' height spent happly => ?_, fun v height => ?_,
    fun v spent hlen => ?_, hnodup, fun i input _ => tx.length_calledBy input i⟩
  · have htouches := touches_applyTransaction happly
    exact ⟨htouches, htouches.leafSets_eq leafSets_mark⟩
  · obtain ⟨v', hrun, -⟩ := applyTransactionForReplay_spec (T := Set.univ) (L := Set.univ) v tx height
      false (fun _ => hparse) (fun _ => hnodup)
    have htouches := touches_applyTransactionForReplay hrun
    exact ⟨v', hrun, htouches, htouches.leafSets_eq leafSets_mark⟩
  · obtain ⟨v', hrun, -⟩ := undoTransaction_spec (T := Set.univ) (L := Set.univ) v hcb hparse hlen
    have htouches := touches_undoTransaction hcb hlen hrun
    exact ⟨v', hrun, htouches, htouches.leafSets_eq leafSets_unmark⟩

section Witness

open WalletManager

/-- A set with the one coin that `slipW` spends. -/
def purseW : UTXOSet :=
  (UTXOSet.openDB CoinsDB.empty).addCoinOverwrite slipW.spends
    (Coin.unspent 7700000000 payerHash 1 true)

/-- The signatures of `slipW` and no others. -/
abbrev acceptsW : Ed25519 where
  verifySimple pubkey signature msg :=
    pubkey = plainCrypto.getPublicKey FixedBytes.zero ∧ signature = slipW.signature ∧
      msg = slipW.sigHash.data

theorem verified_slipW :
    @TxValidation.verifyTransactionSignatures acceptsW slipW.tx purseW [] =
      .ok (slipW.leafKeys.reverse ++ []) := by
  have hcoin : purseW.getCoin slipW.spends = some (Coin.unspent 7700000000 payerHash 1 true) := by
    rw [purseW, UTXOSet.addCoinOverwrite, UTXOSet.getCoin_setEntry, Function.update_self]
    rfl
  have hunspent : ∀ key ∈ slipW.leafKeys, purseW.isNoiseLeafSpent key = false := by
    intro key _
    rw [purseW, UTXOSet.addCoinOverwrite, UTXOSet.isNoiseLeafSpent_setEntry, Bool.eq_false_iff, ne_eq,
      UTXOSet.isNoiseLeafSpent_openDB]
    exact Finset.notMem_empty key
  have hverify : acceptsW.verifySimple (plainCrypto.getPublicKey FixedBytes.zero) slipW.signature
      slipW.sigHash.data = true := decide_eq_true ⟨rfl, rfl, rfl⟩
  exact @Slip.Fits.verifyTransactionSignatures _ acceptsW fits_slipW _ _ _ hverify hcoin rfl hunspent
    fun _ _ => List.not_mem_nil

/-- On the payment `slipW`. -/
theorem one_reading_of_slipW :
    slipW.tx.isCoinbase = false ∧
      @TxValidation.verifyTransactionSignatures acceptsW slipW.tx purseW [] =
        .ok (slipW.leafKeys.reverse ++ []) ∧
      Mempool.extractLeafKeys slipW.tx = (slipW.tx.calledLeaves, true) ∧ slipW.tx.calledLeaves.Nodup := by
  have hcb : slipW.tx.isCoinbase = false := fits_slipW.isCoinbase _ _
  obtain ⟨hread, -, -, -, hnodup, -⟩ := @one_reading_of_the_leaves acceptsW _ _ _ _ hcb verified_slipW
  exact ⟨hcb, verified_slipW, hread, hnodup⟩

end Witness

end Moneu
