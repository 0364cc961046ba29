/-
# Failed flushes

`FlushCache` marks an entry clean when it ADDS it to a batch, and a batch may then be refused.  An
unspent entry survives this: it stays in the cache, and no later flush drops it.  A SPENT entry does
not: the next flush that completes skips it, because it is clean, and drops it, because it is spent
-- and the coin it hid, never erased from the database, is there again.

Section 2 follows an arbitrary sequence of operations beside the same sequence without its flushes.
The two give the same answers as long as no flush completes while such a stale entry is in the
cache, and they differ after the first one that does.
-/
import Moneu.Storage.Flush

namespace Moneu.UTXOSet

open Journal

/-! ## 1. Operations -/

/-- The operations of a caller.  `flush` names the `WriteBatch` that throws, if one does; `rehash`
is the hash table of the cache changing its iteration order. -/
inductive Op where
  | apply (tx : Transaction) (height : UInt32) (isCoinbase : Bool)
  | undo (tx : Transaction) (spentCoins : List Coin)
  | spend (outpoint : OutPoint)
  | add (outpoint : OutPoint) (coin : Coin)
  | mark (key : NoiseLeafKey)
  | unmark (key : NoiseLeafKey)
  | rehash (order : UTXOMap)
  | flush (fail : Option Nat)

/-- Is the operation a flush? -/
def Op.isFlush : Op → Bool
  | .flush _ => true
  | _ => false

def step (u : UTXOSet) : Op → UTXOSet
  | .apply tx height isCoinbase =>
    match u.applyTransaction tx height isCoinbase with
    | .ok (u, _) => u
    | .error _ => u
  | .undo tx spentCoins => (u.undoTransaction tx spentCoins).1
  | .spend outpoint => (u.spendCoin outpoint).1
  | .add outpoint coin => (u.addCoin outpoint coin).1
  | .mark key => u.markNoiseLeafSpent key
  | .unmark key => u.unmarkNoiseLeafSpent key
  | .rehash order => if order.entries.Perm u.cache.entries then { u with cache := order } else u
  | .flush fail => (u.flush fail).1

def run (u : UTXOSet) (ops : List Op) : UTXOSet := ops.foldl step u

/-- The same operations, no flush among them. -/
def withoutFlush (ops : List Op) : List Op := ops.filter fun op => !op.isFlush

/-- Two sets give the same answers. -/
def SameAnswers (u v : UTXOSet) : Prop :=
  (∀ o, u.getCoin o = v.getCoin o) ∧ (∀ o, u.haveCoin o = v.haveCoin o) ∧
    ∀ key, u.isNoiseLeafSpent key = v.isNoiseLeafSpent key

/-- A stale entry: spent, marked as written, and the database still has the coin. -/
def Stale (u : UTXOSet) : Prop :=
  ∃ o entry c, u.cache.lookup o = some entry ∧ entry.coin.isSpent = true ∧
    entry.isDirty = false ∧ u.db.coins.lookup o = some c ∧ c.isSpent = false

/-! ## 2. Beside the run without flushes -/

variable {u v : UTXOSet}

/-- The two maps agree, and the left set keeps its leaves in order. -/
structure Beside (u v : UTXOSet) : Prop where
  coins : u.getCoin = v.getCoin
  leaves : u.isNoiseLeafSpent = v.isNoiseLeafSpent
  rep : LeafRep u

theorem Beside.sameAnswers (h : Beside u v) : SameAnswers u v := by
  refine ⟨fun o => by rw [h.coins], fun o => ?_, fun key => by rw [h.leaves]⟩
  rw [haveCoin_eq, haveCoin_eq, h.coins]

theorem LeafRep.setEntry (h : LeafRep u) (o : OutPoint) (entry : UTXOEntry) :
    LeafRep (u.setEntry o entry) := ⟨h.dirty_cached, h.not_erased, h.cached_stored⟩

theorem LeafRep.eraseCoin (h : LeafRep u) (o : OutPoint) : LeafRep (u.eraseCoin o) :=
  ⟨h.dirty_cached, h.not_erased, h.cached_stored⟩

theorem LeafRep.spendCoin (h : LeafRep u) (o : OutPoint) :
    LeafRep (u.spendCoin o).1 := by
  rcases spendCoin_cases u o with heq | ⟨entry, -, heq⟩ <;> rw [heq]
  · exact h
  · exact h.setEntry o entry

theorem addCoin_cases (u : UTXOSet) (o : OutPoint) (coin : Coin) :
    (u.addCoin o coin).1 = u ∨ (u.addCoin o coin).1 = u.addCoinOverwrite o coin := by
  unfold addCoin
  split
  · split
    · exact .inl rfl
    · exact .inr rfl
  · split
    · split
      · exact .inl rfl
      · exact .inr rfl
    · exact .inr rfl

theorem isNoiseLeafSpent_addCoin (u : UTXOSet) (o : OutPoint) (coin : Coin) :
    (u.addCoin o coin).1.isNoiseLeafSpent = u.isNoiseLeafSpent := by
  rcases addCoin_cases u o coin with h | h <;> rw [h]
  rfl

theorem LeafRep.addCoin (h : LeafRep u) (o : OutPoint) (coin : Coin) :
    LeafRep (u.addCoin o coin).1 := by
  rcases addCoin_cases u o coin with heq | heq <;> rw [heq]
  · exact h
  · exact h.setEntry o _

theorem LeafRep.addCoins (h : LeafRep u) (coins : List (OutPoint × Coin)) :
    LeafRep (u.addCoins coins) :=
  List.foldlRecOn coins _ h fun _ hu _ _ => hu.setEntry _ _

theorem LeafRep.applied (h : LeafRep u) (tx : Transaction) (height : UInt32) (spent : List Coin) :
    LeafRep (u.applied tx height spent) := by
  have hspend : ∀ item v, LeafRep v → LeafRep (v.spendCollected item) := fun item v hv => by
    unfold spendCollected
    split <;> exact hv.setEntry _ _
  exact (List.foldlRecOn _ _ (List.foldlRecOn _ _ h fun v hv item _ => hspend item v hv)
    fun v hv key _ => hv.markNoiseLeafSpent key).addCoins _

theorem LeafRep.restoreInputs : ∀ (inputs : List TxInput) (coins : List Coin) {u : UTXOSet},
    LeafRep u → LeafRep (u.restoreInputs inputs coins).1
  | [], [], _, h => h
  | [], _ :: _, _, h => h
  | _ :: _, [], _, h => h
  | input :: inputs, c :: coins, u, h => by
    have hv : LeafRep ((u.setEntry input.outpoint
        { coin := c.restored, isDirty := true, isNew := false }).unmarkAll
        (leafKeys input.kps (NoiseProof.readAll input.noiseProof).1)) :=
      List.foldlRecOn _ _ (h.setEntry _ _) fun v hv key _ => hv.unmarkNoiseLeafSpent key
    unfold UTXOSet.restoreInputs
    dsimp only
    split
    · exact hv
    · exact LeafRep.restoreInputs inputs coins hv

theorem restoreInputs_congr : ∀ (inputs : List TxInput) (coins : List Coin) {u v : UTXOSet},
    u.getCoin = v.getCoin → u.isNoiseLeafSpent = v.isNoiseLeafSpent →
      (u.restoreInputs inputs coins).1.getCoin = (v.restoreInputs inputs coins).1.getCoin ∧
        (u.restoreInputs inputs coins).1.isNoiseLeafSpent =
          (v.restoreInputs inputs coins).1.isNoiseLeafSpent
  | [], [], _, _, hc, hl => ⟨hc, hl⟩
  | [], _ :: _, _, _, hc, hl => ⟨hc, hl⟩
  | _ :: _, [], _, _, hc, hl => ⟨hc, hl⟩
  | input :: inputs, c :: coins, u, v, hc, hl => by
    unfold restoreInputs
    dsimp only
    split
    · simp [getCoin_unmarkAll, isNoiseLeafSpent_unmarkAll, hc, hl]
    · apply restoreInputs_congr inputs coins
      · simp [getCoin_unmarkAll, hc]
      · simp [isNoiseLeafSpent_unmarkAll, hl]

theorem Beside.apply (h : Beside u v) (tx : Transaction) (height : UInt32) (isCoinbase : Bool) :
    Beside (u.step (.apply tx height isCoinbase)) (v.step (.apply tx height isCoinbase)) := by
  cases isCoinbase with
  | true =>
    refine ⟨?_, ?_, h.rep.addCoins _⟩
    · simp only [step, applyTransaction_coinbase, getCoin_coinbase, h.coins]
    · simp only [step, applyTransaction_coinbase, isNoiseLeafSpent_addCoins, h.leaves]
  | false =>
    cases hu : u.applyTransaction tx height false with
    | ok r =>
      obtain ⟨spent, hsp, rfl⟩ := applyTransaction_eq_ok.mp hu
      have hv : v.applyTransaction tx height false = .ok (v.applied tx height spent, spent) :=
        applyTransaction_eq_ok.mpr ⟨spent, h.coins ▸ h.leaves ▸ hsp, rfl⟩
      simp only [UTXOSet.step, hu, hv]
      refine ⟨?_, ?_, h.rep.applied tx height spent⟩
      · rw [getCoin_applied u tx height hsp.length_eq, getCoin_applied v tx height hsp.length_eq,
          h.coins]
      · rw [isNoiseLeafSpent_applied, isNoiseLeafSpent_applied, h.leaves]
    | error e =>
      cases hv : v.applyTransaction tx height false with
      | error e' =>
        simp only [UTXOSet.step, hu, hv]
        exact h
      | ok r =>
        obtain ⟨spent, hsp, -⟩ := applyTransaction_eq_ok.mp hv
        have hu' : u.applyTransaction tx height false =
            .ok (u.applied tx height spent, spent) :=
          applyTransaction_eq_ok.mpr ⟨spent, h.coins.symm ▸ h.leaves.symm ▸ hsp, rfl⟩
        rw [hu] at hu'
        cases hu'

theorem Beside.undo (h : Beside u v) (tx : Transaction) (spentCoins : List Coin) :
    Beside (u.undoTransaction tx spentCoins).1 (v.undoTransaction tx spentCoins).1 := by
  have herased : Beside ((outpointsOf tx).foldl eraseCoin u) ((outpointsOf tx).foldl eraseCoin v) := by
    refine ⟨?_, ?_, List.foldlRecOn _ _ h.rep fun w hw o _ => hw.eraseCoin o⟩
    · rw [getCoin_eraseAll, getCoin_eraseAll, h.coins]
    · rw [isNoiseLeafSpent_eraseAll, isNoiseLeafSpent_eraseAll, h.leaves]
  unfold undoTransaction
  dsimp only
  split
  · split
    · exact herased
    · obtain ⟨hc, hl⟩ := restoreInputs_congr tx.inputs spentCoins herased.coins herased.leaves
      exact ⟨hc, hl, herased.rep.restoreInputs _ _⟩
  · exact herased

/-- **Any operation but a flush keeps the two side by side.** -/
theorem Beside.step (h : Beside u v) {op : Op} (hop : op.isFlush = false) :
    Beside (u.step op) (v.step op) := by
  cases op with
  | apply tx height isCoinbase => exact h.apply tx height isCoinbase
  | undo tx spentCoins => exact h.undo tx spentCoins
  | spend o =>
    refine ⟨?_, ?_, h.rep.spendCoin o⟩
    · simp only [UTXOSet.step, getCoin_spendCoin, h.coins]
    · simp only [UTXOSet.step, isNoiseLeafSpent_spendCoin, h.leaves]
  | add o coin =>
    refine ⟨?_, ?_, h.rep.addCoin o coin⟩
    · simp only [UTXOSet.step, getCoin_addCoin, h.coins]
    · simp only [UTXOSet.step, isNoiseLeafSpent_addCoin, h.leaves]
  | mark key =>
    refine ⟨h.coins, ?_, h.rep.markNoiseLeafSpent key⟩
    simp only [UTXOSet.step, isNoiseLeafSpent_markNoiseLeafSpent, h.leaves]
  | unmark key =>
    refine ⟨h.coins, ?_, h.rep.unmarkNoiseLeafSpent key⟩
    simp only [UTXOSet.step, isNoiseLeafSpent_unmarkNoiseLeafSpent, h.leaves]
  | rehash order =>
    have hperm : ∀ w : UTXOSet, (w.step (.rehash order)).getCoin = w.getCoin ∧
        (w.step (.rehash order)).isNoiseLeafSpent = w.isNoiseLeafSpent := by
      intro w
      unfold UTXOSet.step
      dsimp only
      split
      · rename_i hp
        refine ⟨?_, rfl⟩
        funext o
        rw [getCoin_eq, getCoin_eq, AList.perm_lookup hp]
      · exact ⟨rfl, rfl⟩
    refine ⟨?_, ?_, ?_⟩
    · rw [(hperm u).1, (hperm v).1, h.coins]
    · rw [(hperm u).2, (hperm v).2, h.leaves]
    · unfold UTXOSet.step
      dsimp only
      split
      · exact ⟨h.rep.dirty_cached, h.rep.not_erased, h.rep.cached_stored⟩
      · exact h.rep
  | flush fail => cases hop

/-- A flush keeps them side by side if it throws, or if no entry is stale. -/
theorem Beside.flush (h : Beside u v) {fail : Option Nat}
    (hstale : (u.flush fail).2 = .ret true → ¬ u.Stale) : Beside (u.flush fail).1 v := by
  rcases flushCache_cases u u.bestBlock fail with ⟨hret, hflushed⟩ | ⟨-, hunflushed⟩
  · refine ⟨?_, (hflushed.isNoiseLeafSpent_eq h.rep).trans h.leaves, hflushed.leafRep h.rep⟩
    refine Eq.trans (hflushed.getCoin_eq fun o entry hentry hd hs => ?_) h.coins
    cases hdb : u.db.coins.lookup o with
    | none => rfl
    | some c =>
      refine Coin.live_eq_none.mpr ?_
      by_contra hc
      rw [Bool.not_eq_true] at hc
      exact hstale hret ⟨o, entry, c, hentry, hs, hd, hdb, hc⟩
  · exact ⟨hunflushed.getCoin_eq.trans h.coins, hunflushed.isNoiseLeafSpent_eq.trans h.leaves,
      hunflushed.leafRep h.rep⟩

/-- **A flush that completes over a stale entry changes an answer.** -/
theorem Stale.getCoin_flush_ne (h : u.Stale) {fail : Option Nat} (hret : (u.flush fail).2 = .ret true) :
    (u.flush fail).1.getCoin ≠ u.getCoin := by
  obtain ⟨o, entry, c, hentry, hs, hd, hdb, hc⟩ := h
  have hflushed : Flushed u u.bestBlock (u.flush fail).1 := by
    rcases flushCache_cases u u.bestBlock fail with ⟨-, h⟩ | ⟨hthrew, -⟩
    · exact h
    · rw [UTXOSet.flush, hthrew] at hret
      cases hret
  intro heq
  have hbefore : u.getCoin o = none := by
    rw [getCoin_of_cached hentry, Coin.live_eq_none.mpr hs]
  have hdropped := hflushed.lookup_eq_none (o := o) fun e he => by
    rw [hentry, Option.some.injEq] at he
    rw [← he, hs]
  have hafter : (u.flush fail).1.getCoin o = some c := by
    rw [getCoin_of_not_cached hdropped, hflushed.coins_clean hentry hd, hdb]
    exact Coin.live_eq_some.mpr ⟨hc, rfl⟩
  rw [heq, hbefore] at hafter
  cases hafter

/-! ## 3. Whole runs -/

theorem run_append (u : UTXOSet) (ops : List Op) (op : Op) :
    u.run (ops ++ [op]) = (u.run ops).step op := by
  simp [run]

/-- **The run lemma**: as long as no flush completes over a stale entry, the run stays beside the
one without flushes. -/
theorem Beside.run (db : CoinsDB) (ops : List Op)
    (h : ∀ pre fail, pre ++ [.flush fail] <+: ops →
      ((UTXOSet.openDB db).run pre |>.flush fail).2 = .ret true →
        ¬ ((UTXOSet.openDB db).run pre).Stale) :
    Beside ((UTXOSet.openDB db).run ops) ((UTXOSet.openDB db).run (withoutFlush ops)) := by
  induction ops using List.reverseRecOn with
  | nil => exact ⟨rfl, rfl, LeafRep.openDB db⟩
  | append_singleton ops op ih =>
    have hpre := ih fun pre fail hp => h pre fail (hp.trans (List.prefix_append ops [op]))
    cases hop : op.isFlush with
    | false =>
      have hkeep : withoutFlush (ops ++ [op]) = withoutFlush ops ++ [op] := by
        simp [withoutFlush, hop]
      rw [hkeep, run_append, run_append]
      exact hpre.step hop
    | true =>
      have hdrop : withoutFlush (ops ++ [op]) = withoutFlush ops := by simp [withoutFlush, hop]
      rw [hdrop, run_append]
      cases op with
      | flush fail => exact hpre.flush (h ops fail (List.prefix_refl _))
      | _ => cases hop

/-- **Failed flushes change an answer exactly when a later flush completes over a stale entry.**
For every database and every sequence of operations: the answers after every initial part of the
sequence are those of the same operations without any flush if and only if every flush of the
sequence that completes does so in a state with no stale entry. -/
theorem sameAnswers_iff_no_flush_over_stale (db : CoinsDB) (ops : List Op) :
    (∀ pre, pre <+: ops →
      SameAnswers ((openDB db).run pre) ((openDB db).run (withoutFlush pre))) ↔
    ∀ pre fail, pre ++ [.flush fail] <+: ops →
      (((openDB db).run pre).flush fail).2 = .ret true → ¬ ((openDB db).run pre).Stale := by
  constructor
  · intro hsame pre fail hp hret hstale
    have hbefore := hsame pre ((List.prefix_append pre _).trans hp)
    have hafter := hsame _ hp
    have hdrop : withoutFlush (pre ++ [.flush fail]) = withoutFlush pre := by
      simp [withoutFlush, Op.isFlush]
    rw [hdrop, run_append] at hafter
    refine hstale.getCoin_flush_ne hret (funext fun o => ?_)
    exact (hafter.1 o).trans (hbefore.1 o).symm
  · intro h pre hp
    exact (Beside.run db pre fun q fail hq => h q fail (hq.trans hp)).sameAnswers

def lostSpendCoin : Coin := Coin.unspent 1 FixedBytes.zero 0 false

/-- The database of the example below: one coin, nothing else. -/
def lostSpendDB : CoinsDB :=
  { CoinsDB.empty with coins := AList.singleton ⟨FixedBytes.zero, 0⟩ lostSpendCoin }

/-- **A spend is lost**: one stored coin is spent, the last batch of the next flush is refused, and
a second flush succeeds.  The coin is back; without the flushes it is spent. -/
theorem lost_spend :
    ((openDB lostSpendDB).run
        [.spend ⟨FixedBytes.zero, 0⟩, .flush (some 1), .flush none]).getCoin ⟨FixedBytes.zero, 0⟩ =
      some lostSpendCoin ∧
    ((openDB lostSpendDB).run
        (withoutFlush [.spend ⟨FixedBytes.zero, 0⟩, .flush (some 1), .flush none])).getCoin
          ⟨FixedBytes.zero, 0⟩ = none := by
  decide

end Moneu.UTXOSet
