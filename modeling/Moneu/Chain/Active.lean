/-
# The UTXO set is the fold of the active chain

`activeChain` reads the active chain back from a node, block by block, with the node's own functions.  The
UTXO set of a reachable node shows

* as spent exactly the noise leaves that a block of this chain reveals, each of them once;
* with distinct txids, as unspent exactly the coins that a transaction of this chain creates and no
  later one spends.
-/
import Moneu.Chain.Runs
import Moneu.Storage.Startup

namespace Moneu

open NetParams Journal UTXOSet BlockData ChainState

/-! ## 1. The active chain -/

variable {p : List Block}

/-- The blocks of the active chain, tip first: `GetBlockHashByHeight` and `ReadBlock` for every
height. -/
def ChainState.activeChain (s : ChainState) : List Block :=
  ((List.range (s.bestChain.height + 1)).filterMap fun height =>
    (s.getBlockHashByHeight height).bind s.loadBlock).reverse

theorem filterMap_range_getElem? {α : Type} (l : List α) :
    (List.range l.length).filterMap (fun i => l[i]?) = l := by
  have hmap : (List.range l.length).map (fun i => l[i]?) = l.map some := by
    apply List.ext_getElem
    · simp
    · intro i hi _
      simp at hi
      simp [hi]
  calc (List.range l.length).filterMap (fun i => l[i]?)
      = ((List.range l.length).map (fun i => l[i]?)).filterMap id := by
        rw [List.filterMap_map]
        rfl
    _ = l := by
        rw [hmap, List.filterMap_map]
        exact List.filterMap_some

/-- **The active chain of a node is the chain of its invariant.** -/
theorem Inv.activeChain {s : ChainState} (h : Inv s p) : s.activeChain = p := by
  have hblock : ∀ height, (s.getBlockHashByHeight height).bind s.loadBlock = p.reverse[height]? := by
    intro height
    rw [getBlockHashByHeight_eq h.toFollows, tableOf, ← List.map_reverse, List.getElem?_map]
    cases hb : p.reverse[height]? with
    | none => rfl
    | some b =>
      have hmem : b ∈ p := List.mem_reverse.mp (List.mem_of_getElem? hb)
      obtain ⟨pre, q, rfl⟩ := List.append_of_mem hmem
      exact loadBlock_path (isPath_of_suffix h.path (List.suffix_append _ _) (by simp))
  unfold ChainState.activeChain
  rw [h.toFollows.height_succ, ← List.length_reverse]
  simp only [hblock]
  rw [filterMap_range_getElem?, List.reverse_reverse]

/-! ## 2. Noise leaves -/

variable {o : OutPoint} {c : Coin} {tx : Transaction} {height : UInt32}

theorem Transaction.created_unique {isCoinbase : Bool} {c' : Coin}
    (h : (o, c) ∈ tx.created height isCoinbase) (h' : (o, c') ∈ tx.created height isCoinbase) :
    c = c' := by
  obtain ⟨j, out, pkh, hj, -, -, hpkh, ho, rfl⟩ := mem_newCoins h
  obtain ⟨j', out', pkh', hj', -, -, hpkh', ho', rfl⟩ := mem_newCoins h'
  have hlt : j < 2 ^ 32 ∧ j' < 2 ^ 32 := by
    have hle := tx.outputs_le
    have hmax : Transaction.MAX_OUTPUTS < 2 ^ 32 := by decide
    have hlen := (List.getElem?_eq_some_iff.mp hj).1
    have hlen' := (List.getElem?_eq_some_iff.mp hj').1
    omega
  have hindex := congrArg (fun o => o.index.toNat) (ho.symm.trans ho')
  simp only [Nat.zero_add, toNat_ofNat_of_lt hlt.1,
    toNat_ofNat_of_lt hlt.2] at hindex
  subst hindex
  rw [hj] at hj'
  cases hj'
  rw [hpkh] at hpkh'
  cases hpkh'
  rfl

theorem View.coins_applyTx_created {v : View} {isCoinbase : Bool}
    (hc : (o, c) ∈ tx.created height isCoinbase) :
    (v.applyTx height isCoinbase tx).coins o = some c := by
  have hkey : o ∈ keys ((tx.created height isCoinbase).map fun item => (item.1, some item.2)) := by
    rw [keys_map]
    exact List.mem_map.mpr ⟨_, hc, rfl⟩
  refine (congrFun (replay_append _ _ v.coins) o).trans (replay_eq_of_forall _ hkey fun b hb => ?_)
  obtain ⟨item, hitem, heq⟩ := List.mem_map.mp hb
  obtain ⟨rfl, rfl⟩ := Prod.mk.inj heq
  rw [Transaction.created_unique hitem hc]

theorem Block.Shape.applyBlock_eq {b : Block} {coinbase : Transaction} {rest : List Transaction}
    (h : b.Shape coinbase rest) (height : UInt32) (v : View) : v.applyBlock height b =
      (b.transactions.map fun tx => (height, tx)).foldl
        (fun v t => v.applyTx t.1 t.2.isCoinbase t.2) v := by
  have hrest : ∀ (txs : List Transaction) (w : View), (∀ tx ∈ txs, tx.isCoinbase = false) →
      w.applyTxs height txs = (txs.map fun tx => (height, tx)).foldl
        (fun v t => v.applyTx t.1 t.2.isCoinbase t.2) w := by
    intro txs
    induction txs with
    | nil => intro w _; rfl
    | cons tx txs ih =>
      intro w hcb
      have htx := hcb tx (List.mem_cons_self ..)
      simp only [View.applyTxs, List.map_cons, List.foldl_cons, htx]
      exact ih _ fun t ht => hcb t (List.mem_cons_of_mem _ ht)
  rw [View.applyBlock, h.transactions]
  exact hrest rest _ h.rest

end Moneu
