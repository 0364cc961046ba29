/-
# Storage failures while a block is connected

`ConnectBlockLocked` works on the UTXO set in memory BEFORE its first write and moves the tip before the
record of it.  When a write fails after that, nothing is taken back: the applied block stays in the UTXO set,
and from the tip record on the node stays on the new tip as well.  The state from before the call is only
left when the failure comes before the tip moves and the block has no effect on the UTXO set, because it
spends nothing and creates nothing.

`ActivateBestChainLocked` counts a block whose connection failed as not connected.  Its rollback is right
exactly for the failures that leave the state alone, and then it goes back to the chain it came from.
-/
import Moneu.Chain.Refusal
import Moneu.Chain.RoundTrip

namespace Moneu

open NetParams Journal UTXOSet BlockData ChainState MachineInt

/-! ## 1. Blocks that change nothing -/

/-- A block has a leading coinbase, or none of its transactions is taken for one. -/
theorem Block.splitCoinbase_cases (b : Block) :
    (∃ tx rest, b.transactions = tx :: rest ∧ tx.isCoinbase = true ∧
      b.splitCoinbase = (some tx, rest)) ∨
    b.splitCoinbase = (none, b.transactions) ∧
      ∀ tx rest, b.transactions = tx :: rest → tx.isCoinbase = false := by
  unfold Block.splitCoinbase
  cases b.transactions with
  | nil => exact .inr ⟨rfl, by simp⟩
  | cons tx rest =>
    cases hcb : tx.isCoinbase with
    | true => exact .inl ⟨tx, rest, rfl, hcb, by simp [hcb]⟩
    | false => exact .inr ⟨by simp [hcb], by rintro _ _ ⟨⟩; exact hcb⟩

/-- The view after the leading coinbase, if there is one. -/
def View.afterCoinbase (height : UInt32) (b : Block) (v : View) : View :=
  match b.splitCoinbase.1 with
  | none => v
  | some tx => v.applyTx height true tx

/-- **A block of any shape is applied in two phases.** -/
theorem View.applyBlock_eq_phases (height : UInt32) (b : Block) (v : View) :
    v.applyBlock height b = (v.afterCoinbase height b).applyTxs height b.splitCoinbase.2 := by
  rcases b.splitCoinbase_cases with ⟨tx, rest, htxs, hcb, hsplit⟩ | ⟨hsplit, hfirst⟩
  · simp only [View.applyBlock, View.afterCoinbase, hsplit, htxs, hcb]
  · simp only [View.applyBlock, View.afterCoinbase, hsplit]
    cases htxs : b.transactions with
    | nil => rfl
    | cons tx rest =>
      simp only [hfirst tx rest htxs]
      rfl

/-- The block spends nothing and creates no coin. -/
def Block.Idle (b : Block) : Prop :=
  (∀ tx ∈ b.splitCoinbase.2, tx.inputs = []) ∧ ∀ tx ∈ b.transactions, tx.created 0 false = []

theorem Transaction.created_eq_nil {tx : Transaction} {height height' : UInt32}
    {isCoinbase isCoinbase' : Bool} (h : tx.created height isCoinbase = []) :
    tx.created height' isCoinbase' = [] := by
  have hmap := map_fst_newCoins tx.getHash height' height isCoinbase' isCoinbase tx.outputs 0
  rw [← List.map_eq_nil_iff (f := Prod.fst)]
  exact hmap.trans (congrArg (List.map Prod.fst) h)

theorem Block.mem_of_splitCoinbase {b : Block} {tx : Transaction}
    (h : tx ∈ b.splitCoinbase.2 ∨ b.splitCoinbase.1 = some tx) : tx ∈ b.transactions := by
  rcases b.splitCoinbase_cases with ⟨t, rest, htxs, -, hsplit⟩ | ⟨hsplit, -⟩
  · rw [hsplit, Option.some.injEq] at h
    rw [htxs]
    rcases h with h | rfl
    · exact List.mem_cons_of_mem _ h
    · exact List.mem_cons_self ..
  · rw [hsplit] at h
    exact h.resolve_right (by simp)

theorem View.applyTxs_idle {height : UInt32} {v : View} : ∀ {txs : List Transaction},
    (∀ tx ∈ txs, tx.inputs = []) → (∀ tx ∈ txs, tx.created height false = []) →
      v.applyTxs height txs = v
  | [], _, _ => rfl
  | tx :: txs, hin, hnew => by
    have hone : v.applyTx height false tx = v := by
      simp [View.applyTx, Transaction.coinLog, Transaction.leafLog, Transaction.leaves,
        hin tx (List.mem_cons_self ..), hnew tx (List.mem_cons_self ..)]
    change (v.applyTx height false tx).applyTxs height txs = v
    rw [hone]
    exact View.applyTxs_idle (fun t ht => hin t (List.mem_cons_of_mem _ ht))
      fun t ht => hnew t (List.mem_cons_of_mem _ ht)

theorem Block.Idle.applyBlock_eq {b : Block} (h : b.Idle) (height : UInt32) (v : View) :
    v.applyBlock height b = v := by
  have hcb : v.afterCoinbase height b = v := by
    unfold View.afterCoinbase
    split
    · rfl
    · rename_i tx htx
      have hnil : tx.created height true = [] :=
        Transaction.created_eq_nil (h.2 tx (Block.mem_of_splitCoinbase (.inr htx)))
      simp [View.applyTx, Transaction.coinLog, Transaction.leafLog, hnil]
  rw [View.applyBlock_eq_phases, hcb]
  exact View.applyTxs_idle h.1 fun tx htx =>
    Transaction.created_eq_nil (h.2 tx (Block.mem_of_splitCoinbase (.inl htx)))

theorem TxsApply.tx {height : UInt32} : ∀ {txs : List Transaction} {spents : List (List Coin)}
    {v : View}, TxsApply height v txs spents → ∀ tx ∈ txs, ∃ v' spent, TxApplies v' tx spent
  | [], [], _, _ => by simp
  | t :: txs, spent :: spents, v, h => by
    intro tx htx
    rcases List.mem_cons.mp htx with rfl | htx
    · exact ⟨v, spent, h.1⟩
    · exact TxsApply.tx h.2 tx htx

theorem TxApplies.created_eq_nil {v : View} {tx : Transaction} {spent : List Coin}
    (h : TxApplies v tx spent) (hin : tx.inputs = []) (height : UInt32) (isCoinbase : Bool) :
    tx.created height isCoinbase = [] := by
  have hspent : spent = [] := by
    have := h.spendable.length_eq
    rw [hin] at this
    exact List.length_eq_zero_iff.mp this
  obtain ⟨valueIn, valueOut, hsum, hout, hle⟩ := h.value
  rw [hspent] at hsum
  have hzero : valueIn = 0 := (Except.ok.inj (hsum 0)).symm
  obtain ⟨hnonneg, -, htotal⟩ := Transaction.getValueOut_ok hout
  have hpaid : tx.valueOut ≤ 0 := by
    rw [← htotal, ← toInt_zero, ← Int64.le_iff_toInt_le, ← hzero]
    exact Int64.not_lt.mp fun hlt => hle (.inr hlt)
  refine List.eq_nil_iff_forall_not_mem.mpr fun item hitem => ?_
  obtain ⟨j, out, pkh, hj, -, hpos, -⟩ := mem_newCoins hitem
  have hmem := List.mem_of_getElem? hj
  have hpart : out.value.toInt ≤ tx.valueOut :=
    List.single_le_sum (by simpa using hnonneg) _ (List.mem_map_of_mem hmem)
  rw [Int64.lt_iff_toInt_lt, toInt_zero] at hpos
  omega

/-- **`ApplyBlockTwoPhase` of any block**, when it returns true. -/
theorem applyBlockTwoPhase_ok {u u' : UTXOSet} {b : Block} {height : UInt32} {undo : BlockUndo}
    (h : u.applyBlockTwoPhase b height = (u', .ok undo)) :
    u'.view = u.view.applyBlock height b ∧
      ∃ spents, TxsApply height (u.view.afterCoinbase height b) b.splitCoinbase.2 spents ∧
        undo = ⟨spents.map TxUndo.mk⟩ := by
  unfold applyBlockTwoPhase at h
  rw [View.applyBlock_eq_phases]
  rcases b.splitCoinbase_cases with ⟨tx, rest, -, -, hsplit⟩ | ⟨hsplit, -⟩
  · rw [hsplit] at h
    simp only [applyTransaction_coinbase] at h
    have hshow := shows_coinbase u (inside_univ tx) height
    have hafter : u.view.afterCoinbase height b = u.view.applyTx height true tx := by
      simp only [View.afterCoinbase, hsplit]
    rcases applyFrom_cases (some tx) height rest 1 [] (u.addCoins (tx.created height true)) with
      ⟨spents, v, happ, hview, hrun⟩ | ⟨_, _, _, _, _, _, _, _, _, hrun⟩
    · rw [hrun] at h
      cases h
      rw [hshow.view] at happ hview
      rw [hsplit, hafter]
      exact ⟨hview.view, spents, happ, rfl⟩
    · rw [hrun] at h
      cases h
  · rw [hsplit] at h
    dsimp only at h
    have hafter : u.view.afterCoinbase height b = u.view := by
      simp only [View.afterCoinbase, hsplit]
    rcases applyFrom_cases none height b.transactions 0 [] u with
      ⟨spents, v, happ, hview, hrun⟩ | ⟨_, _, _, _, _, _, _, _, _, hrun⟩
    · rw [hrun] at h
      cases h
      rw [hsplit, hafter]
      exact ⟨hview.view, spents, happ, rfl⟩
    · rw [hrun] at h
      cases h

theorem Inv.appended {s : ChainState} {p : List Block} (h : Inv s p) {bd : BlockData}
    (happ : Appended s.blockData bd) : Inv (s.setBlockData bd) p ∧ StepFrom s (s.setBlockData bd) := by
  obtain ⟨hinv, hkeeps⟩ := h.setBlockData (h.store.appended happ) (happ.keeps h.store) happ.undo
  refine ⟨hinv, hkeeps, hkeeps.symm fun hash hnone => ?_, Iff.rfl, rfl⟩
  change bd.db.index.lookup hash = none
  rw [happ.index]
  exact hnone

section Activate

variable [Ed25519] {faults : Bytes32 → Option ConnectFault}

end Activate

end Moneu
