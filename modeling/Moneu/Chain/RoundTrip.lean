/-
# Connecting a block and taking it off again

`UndoTransaction` erases every outpoint of a transaction, whether or not the outpoint was empty before the
transaction was applied.  So a block can be taken off without a trace if and only if its outputs were at
empty places.  For its transactions that spend something they are (`Inv.others_new`).  For the coinbase
nothing sees to it: two coinbases with the same bytes have the same txid, the second one overwrites the
coins of the first, and taking it off loses them.
-/
import Moneu.Chain.Solo

namespace Moneu

open NetParams Journal UTXOSet BlockData ChainState

variable {tx : Transaction} {o : OutPoint}

/-- Where the coins of a transaction are does not depend on the height. -/
theorem map_fst_newCoins (txHash : Bytes32) (height height' : UInt32) (isCoinbase isCoinbase' : Bool) :
    ∀ (outputs : List TxOutput) (i : Nat),
      (newCoins txHash height isCoinbase i outputs).map Prod.fst =
        (newCoins txHash height' isCoinbase' i outputs).map Prod.fst
  | [], _ => rfl
  | output :: rest, i => by
    have ih := map_fst_newCoins txHash height height' isCoinbase isCoinbase' rest (i + 1)
    unfold newCoins
    split
    · exact ih
    · split
      · exact ih
      · split
        · exact ih
        · rw [List.map_cons, List.map_cons, ih]

section RoundTrip

variable {s : ChainState} {p : List Block} {b : Block}

/-- **What is shown after a block was connected and taken off**: the view before it, with the block applied
and undone. -/
theorem OnTip.disconnectTip {s₁ s' : ChainState} (h : Inv s p) (hon : OnTip s p b s₁ s') :
    ∃ s'' spents, s'.disconnectTip = (s'', true) ∧
      s.utxoSet.view.BlockApplies (UInt32.ofNat p.length) b spents ∧
      s''.utxoSet.view =
        (s.utxoSet.view.applyBlock (UInt32.ofNat p.length) b).undoBlock b spents := by
  obtain ⟨q, r, rfl⟩ := h.toFollows.cons
  obtain ⟨s'', spents, hrun, -, -, happ, hview⟩ := hon.inv.disconnectTip_spec
  obtain ⟨spents', u, happ', -, -⟩ := hon.connects
  have hsame : spents = spents' := happ.unique (happ'.mono h.below)
  rw [hon.view h.atTip.rep] at hview
  exact ⟨s'', spents, hrun, hsame ▸ happ', hview⟩

variable [Ed25519]

end RoundTrip

/-! ## Two coinbases with the same bytes -/

variable {p : List Block} {s : ChainState}

theorem injOn_txPreimages (h : (txidsOf p).Nodup) :
    Set.InjOn sha256 (txPreimages p) := by
  have hsplit : txidsOf p = (p.flatMap Block.transactions).map Transaction.getHash := by
    rw [txidsOf, List.map_flatMap]
  rw [hsplit] at h
  rintro _ ⟨b, hb, tx, htx, rfl⟩ _ ⟨b', hb', tx', htx', rfl⟩ heq
  rw [List.inj_on_of_nodup_map h (List.mem_flatMap.mpr ⟨b, hb, htx⟩)
    (List.mem_flatMap.mpr ⟨b', hb', htx'⟩) heq]

theorem extend_a1 :
    (@acceptBlock noSignatures noFaults fresh.1 1786725267 a1).2 = .ret true ∧
      Knows (@acceptBlock noSignatures noFaults fresh.1 1786725267 a1).1 a1 [buildGenesisBlock]
        [a1, buildGenesisBlock] ∧
      ∃ s₁, OnTip fresh.1 [buildGenesisBlock] a1 s₁
        (@acceptBlock noSignatures noFaults fresh.1 1786725267 a1).1 :=
  @Knows.extend _ _ _ _ noSignatures knows_fresh _ _ _ next_a1 (by decide) (by decide)
    (eq_ok_of_isOk (by decide)) samples.a1.reads

/-- The coin of a block with the coinbase `tx` is there after the block was connected. -/
theorem OnTip.getCoin_created {s₁ s' : ChainState} {b : Block} (h : Inv s p) (hon : OnTip s p b s₁ s')
    (hb : Solo b tx) {c : Coin} (hc : (o, c) ∈ tx.created (UInt32.ofNat p.length) true) :
    s'.utxoSet.getCoin o = some c := by
  have hview := hon.view h.atTip.rep
  rw [hb.applyBlock_eq] at hview
  exact (congrFun (congrArg View.coins hview) o).trans (View.coins_applyTx_created hc)

end Moneu
