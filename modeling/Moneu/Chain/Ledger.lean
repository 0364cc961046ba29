/-
# The ledger of a chain

`viewOf p` is the fold of the blocks of a chain, tip first: the coins and the spent leaves that the
chain says there are.  This is what the UTXO set of a node is for, and the modules above compare the
two.  Here are the facts that need no node:

* where a coin of the fold comes from (`coins_viewOf`), and that outpoints are new when txids are
  (`fresh_viewOf`);
* which leaves are spent (`leaf_viewOf`);
* what a `Valid` chain is: every block passed the header checks, was accepted next to the fold of
  the blocks below it, and applies to it.
-/
import Moneu.Chain.Tip
import Moneu.Storage.BlockEffect

namespace Moneu

open NetParams Journal UTXOSet BlockData

/-! ## 1. The fold -/

variable {v : View} {height : UInt32} {b : Block} {o : OutPoint} {c : Coin} {p : List Block}

/-- The coins and the spent leaves of a chain of blocks, tip first. -/
def viewOf : List Block → View
  | [] => View.empty
  | b :: p => (viewOf p).applyBlock (UInt32.ofNat p.length) b

def txidsOf (p : List Block) : List Bytes32 :=
  p.flatMap fun b => b.transactions.map Transaction.getHash

theorem live_viewOf : ∀ p : List Block, (viewOf p).Live
  | [] => fun _ _ h => nomatch h
  | b :: p => (live_viewOf p).applyBlock _ b

/-- A coin after a block was there before or is created by one of its transactions. -/
theorem View.coins_applyBlock (h : (v.applyBlock height b).coins o = some c) :
    v.coins o = some c ∨ ∃ tx ∈ b.transactions, ∃ isCoinbase, (o, c) ∈ tx.created height isCoinbase := by
  unfold View.applyBlock at h
  split at h
  · exact .inl h
  · rename_i tx rest heq
    rw [heq]
    rcases View.coins_applyTxs h with h | ⟨t, ht, hc⟩
    · rcases View.coins_applyTx h with h | h
      · exact .inl h
      · exact .inr ⟨tx, List.mem_cons_self .., _, h⟩
    · exact .inr ⟨t, List.mem_cons_of_mem _ ht, _, hc⟩

/-- **Every coin of the fold is created by a transaction of the chain.** -/
theorem coins_viewOf : ∀ {p : List Block}, (viewOf p).coins o = some c →
    ∃ b q, b :: q <:+ p ∧ ∃ tx ∈ b.transactions, ∃ isCoinbase,
      (o, c) ∈ tx.created (UInt32.ofNat q.length) isCoinbase
  | b :: p, h => by
    rcases View.coins_applyBlock h with h | h
    · obtain ⟨b', q, hsuf, hb'⟩ := coins_viewOf h
      exact ⟨b', q, hsuf.trans (List.suffix_cons b p), hb'⟩
    · exact ⟨b, p, List.suffix_rfl, h⟩

theorem txHash_mem_txidsOf (h : (viewOf p).coins o = some c) : o.txHash ∈ txidsOf p := by
  obtain ⟨b, q, hsuf, tx, htx, isCoinbase, hc⟩ := coins_viewOf h
  rw [txHash_of_mem_outpointsOf (Transaction.mem_outpointsOf_of_created hc)]
  exact List.mem_flatMap.mpr ⟨b, hsuf.subset (List.mem_cons_self ..), List.mem_map_of_mem htx⟩

/-- The outputs of a block whose txids differ are at empty places when their turn comes, if these places
were empty before the block. -/
theorem View.fresh_of_new (hblock : (b.transactions.map Transaction.getHash).Nodup)
    (hold : ∀ t ∈ b.transactions, ∀ o ∈ outpointsOf t, v.coins o = none) (height : UInt32) :
    View.Fresh Eq height v b := by
  intro tx rest htxs
  rw [htxs] at hblock hold
  refine ⟨fun o ho => (hold tx (List.mem_cons_self ..) o ho).symm, ?_⟩
  intro pre t post heq o ho
  refine (Option.eq_none_iff_forall_ne_some.mpr fun c hc => ?_).symm
  -- a coin at `o` would have been created by an earlier transaction with the same txid
  have hnot : ∀ t' ∈ tx :: pre, t'.getHash ≠ t.getHash := fun t' ht' heq' => by
    rw [heq, ← List.cons_append, List.map_append, List.map_cons] at hblock
    obtain ⟨-, -, hdisj⟩ := List.nodup_append'.mp hblock
    exact hdisj (List.mem_map_of_mem ht') (heq' ▸ List.mem_cons_self ..)
  have hcreated : ∀ t' ∈ tx :: pre, ∀ isCoinbase, (o, c) ∉ t'.created height isCoinbase :=
    fun t' ht' isCoinbase hmem => hnot t' ht' (by
      rw [← txHash_of_mem_outpointsOf (Transaction.mem_outpointsOf_of_created hmem),
        txHash_of_mem_outpointsOf ho])
  rcases View.coins_applyTxs hc with hc | ⟨t', ht', hmem⟩
  · rcases View.coins_applyTx hc with hc | hmem
    · rw [hold t (heq ▸ by simp) o ho] at hc
      cases hc
    · exact hcreated tx (List.mem_cons_self ..) _ hmem
  · exact hcreated t' (List.mem_cons_of_mem _ ht') _ hmem

/-- **The outputs of a block are at new places** when no txid repeats. -/
theorem fresh_viewOf (h : (txidsOf (b :: p)).Nodup) (height : UInt32) :
    View.Fresh Eq height (viewOf p) b := by
  obtain ⟨hblock, -, hcross⟩ := List.nodup_append'.mp h
  refine View.fresh_of_new hblock (fun t ht o ho => ?_) height
  refine Option.eq_none_iff_forall_ne_some.mpr fun c hc => ?_
  have hmem := txHash_mem_txidsOf hc
  rw [txHash_of_mem_outpointsOf ho] at hmem
  exact hcross (List.mem_map_of_mem ht) hmem

/-! ## 2. Leaves -/

variable {key : NoiseLeafKey}

/-- The leaves the transactions of a block reveal; a coinbase reveals none. -/
def Block.leaves (b : Block) : List NoiseLeafKey :=
  (b.transactions.filter fun tx => !tx.isCoinbase).flatMap Transaction.leaves

def leavesOf (p : List Block) : List NoiseLeafKey := p.flatMap Block.leaves

theorem Block.Shape.leaves_eq {coinbase : Transaction} {rest : List Transaction}
    (h : b.Shape coinbase rest) : b.leaves = rest.flatMap Transaction.leaves := by
  have hrest : rest.filter (fun tx => !tx.isCoinbase) = rest :=
    List.filter_eq_self.mpr fun tx htx => by simp [h.rest tx htx]
  rw [Block.leaves, h.transactions, List.filter_cons_of_neg (by simp [h.coinbase]), hrest]

theorem View.leaf_applyTx {tx : Transaction} :
    (v.applyTx height false tx).leaf key = true ↔ key ∈ tx.leaves ∨ v.leaf key = true := by
  have hkeys : keys (tx.leafLog false) = tx.leaves := by simp [Transaction.leafLog]
  by_cases hk : key ∈ tx.leaves
  · have hval : replay (tx.leafLog false) v.leaf key = true :=
      replay_eq_of_forall v.leaf (hkeys ▸ hk) fun b hb => by
        obtain ⟨k', -, heq⟩ := List.mem_map.mp hb
        exact (congrArg Prod.snd heq).symm
    simp [View.applyTx, hval, hk]
  · have hval : replay (tx.leafLog false) v.leaf key = v.leaf key :=
      replay_of_notMem v.leaf (hkeys ▸ hk)
    simp [View.applyTx, hval, hk]

theorem View.leaf_applyTxs : ∀ {txs : List Transaction}
    {v : View}, (v.applyTxs height txs).leaf key = true ↔
      key ∈ txs.flatMap Transaction.leaves ∨ v.leaf key = true
  | [], v => by simp [View.applyTxs]
  | tx :: txs, v => by
    have htail : ((v.applyTx height false tx).applyTxs height txs).leaf key = true ↔
        key ∈ txs.flatMap Transaction.leaves ∨ (v.applyTx height false tx).leaf key = true :=
      View.leaf_applyTxs
    rw [View.leaf_applyTx] at htail
    rw [List.flatMap_cons, List.mem_append, or_assoc, or_left_comm]
    exact htail

theorem View.leaf_applyBlock {coinbase : Transaction} {rest : List Transaction}
    (h : b.Shape coinbase rest) :
    (v.applyBlock height b).leaf key = true ↔ key ∈ b.leaves ∨ v.leaf key = true := by
  rw [h.leaves_eq, View.applyBlock, h.transactions]
  simp only [h.coinbase]
  rw [View.leaf_applyTxs]
  rfl

/-- Transactions that apply one after the other reveal new leaves, all different. -/
theorem TxsApply.leaves : ∀ {txs : List Transaction} {spents : List (List Coin)}
    {v : View}, TxsApply height v txs spents →
      (txs.flatMap Transaction.leaves).Nodup ∧
        ∀ key ∈ txs.flatMap Transaction.leaves, v.leaf key = false
  | [], [], _, _ => by simp
  | tx :: txs, spent :: spents, v, h => by
    obtain ⟨hnodup, hfresh⟩ := TxsApply.leaves h.2
    have hnot : ∀ key ∈ txs.flatMap Transaction.leaves, key ∉ tx.leaves ∧ v.leaf key = false :=
      fun key hkey => by
        have hfalse := hfresh key hkey
        rw [← Bool.not_eq_true, View.leaf_applyTx] at hfalse
        exact ⟨fun hmem => hfalse (.inl hmem), by simpa using fun hv => hfalse (.inr hv)⟩
    refine ⟨List.nodup_append'.mpr ⟨h.1.spendable.nodup, hnodup, fun key hk hk' =>
      (hnot key hk').1 hk⟩, fun key hkey => ?_⟩
    rcases List.mem_append.mp hkey with hkey | hkey
    · exact h.1.spendable.fresh key hkey
    · exact (hnot key hkey).2

/-! ## 3. Valid chains -/

/-- The block `b` was connected on top of the chain `p`. -/
structure Connects (p : List Block) (b : Block) : Prop where
  header : ExtendsPath p b.header
  height : b.header.height.toNat = p.length
  accepted : ∃ coinbase rest spents, b.Shape coinbase rest ∧
    BlockAccepted (viewOf p).coins (UInt32.ofNat p.length) coinbase rest spents
  applies : ∃ spents, (viewOf p).BlockApplies (UInt32.ofNat p.length) b spents

/-- Every block of the chain was connected on top of those below it. -/
inductive Valid : List Block → Prop
  | genesis : Valid [buildGenesisBlock]
  | cons {b q : Block} {p : List Block} : Valid (q :: p) → Connects (q :: p) b → Valid (b :: q :: p)

theorem shape_genesis : ∃ coinbase, buildGenesisBlock.Shape coinbase [] := by
  have hshape : ∀ b : Block, (b.transactions.length = 1 ∧
      b.transactions.all fun tx => tx.isCoinbase) → ∃ coinbase, b.Shape coinbase [] := by
    rintro b ⟨hlen, hall⟩
    obtain ⟨tx, htx⟩ := List.length_eq_one_iff.mp hlen
    rw [htx] at hall
    exact ⟨tx, htx, by simpa using hall, by simp⟩
  exact hshape _ (by decide)

theorem Valid.shape (h : Valid (b :: p)) :
    ∃ coinbase rest, b.Shape coinbase rest := by
  cases h with
  | genesis =>
    obtain ⟨coinbase, h⟩ := shape_genesis
    exact ⟨coinbase, [], h⟩
  | cons _ hb =>
    obtain ⟨coinbase, rest, spents, hshape, -⟩ := hb.accepted
    exact ⟨coinbase, rest, hshape⟩

theorem Valid.suffix {q : List Block} (h : Valid p) (hq : q <:+ p) (hne : q ≠ []) : Valid q := by
  induction h with
  | genesis =>
    rcases List.suffix_cons_iff.mp hq with rfl | hq
    · exact .genesis
    · exact absurd (List.suffix_nil.mp hq) hne
  | cons hp hb ih =>
    rcases List.suffix_cons_iff.mp hq with rfl | hq
    · exact .cons hp hb
    · exact ih hq

/-- **The spent leaves of a valid chain are the ones it reveals, each once.** -/
theorem Valid.leaves (h : Valid p) :
    (leavesOf p).Nodup ∧ ∀ key, (viewOf p).leaf key = true ↔ key ∈ leavesOf p := by
  induction h with
  | genesis =>
    obtain ⟨coinbase, hshape⟩ := shape_genesis
    have hleaves := hshape.leaves_eq
    refine ⟨by simp [leavesOf, hleaves], fun key => ?_⟩
    rw [viewOf, View.leaf_applyBlock hshape]
    simp [leavesOf, hleaves, viewOf, View.empty]
  | @cons b q p hp hb ih =>
    obtain ⟨hnodup, hmem⟩ := ih
    obtain ⟨coinbase, rest, -, hshape, -⟩ := hb.accepted
    obtain ⟨spents, happ⟩ := hb.applies
    simp only [View.BlockApplies, hshape.transactions, hshape.coinbase] at happ
    obtain ⟨hblock, hfresh⟩ := TxsApply.leaves happ
    have hsplit : leavesOf (b :: q :: p) = b.leaves ++ leavesOf (q :: p) := rfl
    refine ⟨?_, fun key => ?_⟩
    · rw [hsplit, hshape.leaves_eq]
      refine List.nodup_append'.mpr ⟨hblock, hnodup, fun key hk hk' => ?_⟩
      have hspent := (hmem key).mpr hk'
      rw [show (viewOf (q :: p)).leaf key = false from hfresh key hk] at hspent
      cases hspent
    · rw [viewOf, View.leaf_applyBlock hshape, hmem, hsplit, List.mem_append]

end Moneu
