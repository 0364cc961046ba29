/-
# Blocks of any kind and the UTXO records

`ApplyBlockTwoPhase`, `UndoBlockTwoPhase` and the replay of a block touch coins and leaves, never
the records `DB_UTXO_BEST` and `DB_UTXO_HEADS`, whatever the block is and however the call ends.
In terms of `Within`: they stay within the set of all outpoints and all leaves.
-/
import Moneu.Storage.Flush
import Moneu.Storage.Replay

namespace Moneu.UTXOSet

/-- Everything but a flush and `SetBestBlock` is a change of this kind. -/
abbrev Touched (u u' : UTXOSet) : Prop := Within Set.univ Set.univ u u'

theorem touched_applyTransaction {u : UTXOSet} {tx : Transaction} {height : UInt32}
    {isCoinbase : Bool} {r : UTXOSet × List Coin}
    (h : u.applyTransaction tx height isCoinbase = .ok r) : Touched u r.1 := by
  cases isCoinbase with
  | true =>
    cases h
    exact Within.addCoins (fun _ _ => Set.mem_univ _) u
  | false =>
    obtain ⟨spent, -, rfl⟩ := applyTransaction_eq_ok.mp h
    exact Within.applied (fun _ _ => Set.mem_univ _) (fun _ _ => Set.mem_univ _) u spent

theorem touched_restoreInputs : ∀ (inputs : List TxInput) (coins : List Coin) (u : UTXOSet),
    Touched u (u.restoreInputs inputs coins).1
  | [], [], u => Within.refl _ _ u
  | [], _ :: _, u => Within.refl _ _ u
  | _ :: _, [], u => Within.refl _ _ u
  | input :: inputs, c :: coins, u => by
    have hv : Touched u ((u.setEntry input.outpoint
        { coin := c.restored, isDirty := true, isNew := false }).unmarkAll
        (leafKeys input.kps (NoiseProof.readAll input.noiseProof).1)) :=
      (Within.setEntry (Set.mem_univ _) u _).trans
        (Within.unmarkAll (fun _ _ => Set.mem_univ _) _)
    unfold restoreInputs
    dsimp only
    split
    · exact hv
    · exact hv.trans (touched_restoreInputs inputs coins _)

theorem touched_undoTransaction (u : UTXOSet) (tx : Transaction) (spentCoins : List Coin) :
    Touched u (u.undoTransaction tx spentCoins).1 := by
  have herase : Touched u ((outpointsOf tx).foldl eraseCoin u) :=
    Within.foldl _ u fun _ _ u => Within.eraseCoin (Set.mem_univ _) u
  unfold undoTransaction
  dsimp only
  split
  · split
    · exact herase
    · exact herase.trans (touched_restoreInputs _ _ _)
  · exact herase

/-! ## 1. `ApplyBlockTwoPhase` and `UndoBlockTwoPhase` -/

theorem touched_applyOne {u : UTXOSet} {height : UInt32} {i : Nat} {tx : Transaction}
    {r : UTXOSet × List Coin} (h : u.applyOne height i tx = .ok r) : Touched u r.1 := by
  unfold applyOne at h
  repeat' split at h
  all_goals first | cases h; done | skip
  cases h
  exact touched_applyTransaction ‹_›

theorem touched_rollback (u : UTXOSet) (coinbase : Option Transaction)
    (appliedHere : List (Transaction × List Coin)) : Touched u (u.rollback coinbase appliedHere) := by
  have hundo : Touched u (appliedHere.foldl (fun u item => (u.undoTransaction item.1 item.2).1) u) :=
    Within.foldl _ u fun item _ u => touched_undoTransaction u item.1 item.2
  unfold rollback
  dsimp only
  split
  · exact hundo
  · exact hundo.trans (touched_undoTransaction _ _ _)

theorem touched_applyFrom (coinbase : Option Transaction) (height : UInt32) :
    ∀ (txs : List Transaction) (i : Nat) (appliedHere : List (Transaction × List Coin))
      (u : UTXOSet), Touched u (applyFrom coinbase height i txs appliedHere u).1
  | [], _, _, u => Within.refl _ _ u
  | tx :: rest, i, appliedHere, u => by
    unfold applyFrom
    split
    · exact touched_rollback u coinbase appliedHere
    · exact Within.refl _ _ u
    · rename_i u' spentHere happly
      exact (touched_applyOne happly).trans
        (touched_applyFrom coinbase height rest (i + 1) ((tx, spentHere) :: appliedHere) u')

theorem touched_applyBlockTwoPhase (u : UTXOSet) (block : Block) (height : UInt32) :
    Touched u (u.applyBlockTwoPhase block height).1 := by
  unfold applyBlockTwoPhase
  split
  · split
    · exact Within.refl _ _ u
    · rename_i u' _ happly
      exact (touched_applyTransaction happly).trans (touched_applyFrom _ _ _ _ _ _)
  · exact touched_applyFrom _ _ _ _ _ _

theorem touched_undoTxs : ∀ (items : List (Transaction × TxUndo)) (u : UTXOSet),
    Touched u (u.undoTxs items).1
  | [], u => Within.refl _ _ u
  | (tx, tu) :: rest, u => by
    have hundo := touched_undoTransaction u tx tu.spentCoins
    unfold undoTxs
    split <;> rename_i heq <;> rw [heq] at hundo
    · exact hundo
    · exact hundo.trans (touched_undoTxs rest _)

theorem touched_undoBlockTwoPhase (u : UTXOSet) (block : Block) (undo : BlockUndo) :
    Touched u (u.undoBlockTwoPhase block undo).1 := by
  have hundo := touched_undoTxs (block.splitCoinbase.2.zip undo.txUndo).reverse u
  unfold undoBlockTwoPhase
  dsimp only
  split
  · exact Within.refl _ _ u
  · split <;> rename_i heq <;> rw [heq] at hundo
    · exact hundo
    · split
      · exact hundo
      · exact hundo.trans (touched_undoTransaction _ _ _)

/-! ## 2. Replay -/

theorem touched_markSeen : ∀ (keys seen : List NoiseLeafKey) (u : UTXOSet),
    Touched u (u.markSeen keys seen).1
  | [], _, u => Within.refl _ _ u
  | key :: rest, seen, u => by
    unfold markSeen
    split
    · exact Within.refl _ _ u
    · exact (Within.markNoiseLeafSpent (Set.mem_univ _) u).trans (touched_markSeen rest _ _)

theorem touched_replayInputs : ∀ (inputs : List TxInput) (seen : List NoiseLeafKey) (u : UTXOSet),
    Touched u (u.replayInputs inputs seen).1
  | [], _, u => Within.refl _ _ u
  | input :: rest, seen, u => by
    have hspend : Touched u (u.spendCoin input.outpoint).1 := Within.spendCoin (Set.mem_univ _) u
    have hmark := hspend.trans (touched_markSeen
      (leafKeys input.kps (NoiseProof.readAll input.noiseProof).1) seen _)
    unfold replayInputs
    dsimp only
    split
    · exact hspend.trans (touched_replayInputs rest seen _)
    · split <;> rename_i heq <;> rw [heq] at hmark
      · exact hmark
      · split
        · exact hmark
        · exact hmark.trans (touched_replayInputs rest _ _)

theorem touched_applyTransactionForReplay (u : UTXOSet) (tx : Transaction) (height : UInt32)
    (isCoinbase : Bool) : Touched u (u.applyTransactionForReplay tx height isCoinbase).1 := by
  have hinputs := touched_replayInputs tx.inputs [] u
  have hadd : ∀ v coins, Touched v (addCoins v coins) := fun v coins =>
    Within.addCoins (fun _ _ => Set.mem_univ _) v
  unfold applyTransactionForReplay
  dsimp only
  split
  · exact hadd u _
  · split <;> rename_i heq <;> rw [heq] at hinputs
    · exact hinputs
    · exact hinputs.trans (hadd _ _)

theorem touched_replayTxs (height : UInt32) : ∀ (txs : List Transaction) (i : Nat) (u : UTXOSet),
    Touched u (ChainState.replayTxs height i txs u).1
  | [], _, u => Within.refl _ _ u
  | tx :: rest, i, u => by
    have happly := touched_applyTransactionForReplay u tx height (i = 0 && tx.isCoinbase)
    unfold ChainState.replayTxs
    split <;> rename_i heq <;> rw [heq] at happly
    · exact happly
    · exact happly.trans (touched_replayTxs height rest (i + 1) _)

theorem touched_applyGenesisTxs : ∀ (txs : List Transaction) (i : Nat) (u : UTXOSet),
    Touched u (ChainState.applyGenesisTxs i txs u).1
  | [], _, u => Within.refl _ _ u
  | tx :: rest, i, u => by
    unfold ChainState.applyGenesisTxs
    split
    · exact Within.refl _ _ u
    · rename_i u' _ happly
      exact (touched_applyTransaction happly).trans (touched_applyGenesisTxs rest (i + 1) u')

end Moneu.UTXOSet
