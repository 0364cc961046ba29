/-
# Blocks over the UTXO set

A `View` is what a caller sees of a UTXO set: the coins and the spent leaves.  Applying, undoing and
replaying a block are runs of the journals of its transactions over the view, and this module says
so for `ApplyBlockTwoPhase`, its rollback, `UndoBlockTwoPhase` and the replay loop.

Views are compared by `View.Rel R`: equal leaves, and coins related by `R` one by one.  `R` is
equality where the txids of a chain differ, and `Below` in general, where a coin may have been lost.
-/
import Moneu.Storage.TxEffect
import Moneu.Storage.Replay

namespace Moneu

open Journal UTXOSet

/-! ## 1. Views -/

/-- The coins and the spent leaves. -/
structure View where
  coins : OutPoint → Option Coin
  leaf : NoiseLeafKey → Bool

/-- What a caller sees of a UTXO set. -/
def UTXOSet.view (u : UTXOSet) : View := ⟨u.getCoin, u.isNoiseLeafSpent⟩

namespace View

def empty : View := ⟨fun _ => none, fun _ => false⟩

def applyTx (height : UInt32) (isCoinbase : Bool) (tx : Transaction) (v : View) : View :=
  ⟨replay (tx.coinLog height isCoinbase) v.coins, replay (tx.leafLog isCoinbase) v.leaf⟩

/-- A transaction that spent the coins `spent` is undone. -/
def undoTx (tx : Transaction) (spent : List Coin) (v : View) : View :=
  ⟨replay (tx.coinUndo spent) v.coins, replay tx.leafUndo v.leaf⟩

/-- The outputs of a coinbase are taken out again. -/
def eraseTx (tx : Transaction) (v : View) : View :=
  { v with coins := replay ((outpointsOf tx).map fun o => (o, none)) v.coins }

/-- Transactions that are no coinbase are applied one after the other. -/
def applyTxs (height : UInt32) (txs : List Transaction) (v : View) : View :=
  txs.foldl (fun v tx => v.applyTx height false tx) v

/-- Applied transactions are undone, the last one first. -/
def undoTxs : List Transaction → List (List Coin) → View → View
  | tx :: txs, spent :: spents, v => (undoTxs txs spents v).undoTx tx spent
  | _, _, v => v

/-- Equal leaves, and coins related by `R`. -/
structure Rel (R : Option Coin → Option Coin → Prop) (x v : View) : Prop where
  coins : ∀ o, R (x.coins o) (v.coins o)
  leaf : x.leaf = v.leaf

/-- All coins are unspent ones. -/
def Live (v : View) : Prop := ∀ o c, v.coins o = some c → c.isSpent = false

variable {R : Option Coin → Option Coin → Prop} {x v w : View} {tx : Transaction}
  {spent : List Coin} {height : UInt32} {isCoinbase : Bool}

theorem Rel.of_eq (h : Rel Eq x v) : x = v := by
  obtain ⟨hcoins, hleaf⟩ := h
  cases x
  cases v
  simp only at hcoins hleaf
  rw [funext hcoins, hleaf]

theorem rel_refl (hR : ∀ a, R a a) (v : View) : Rel R v v := ⟨fun _ => hR _, rfl⟩

theorem Rel.applyTx (hR : ∀ a, R a a) (h : Rel R x v) (height : UInt32) (isCoinbase : Bool)
    (tx : Transaction) : Rel R (x.applyTx height isCoinbase tx) (v.applyTx height isCoinbase tx) :=
  ⟨replay_rel (fun _ _ => hR _) h.coins, by rw [View.applyTx, View.applyTx, h.leaf]⟩

theorem Rel.applyTxs (hR : ∀ a, R a a) (height : UInt32) : ∀ (txs : List Transaction) {x v : View},
    Rel R x v → Rel R (x.applyTxs height txs) (v.applyTxs height txs)
  | [], _, _, h => h
  | tx :: txs, _, _, h => Rel.applyTxs hR height txs (h.applyTx hR height false tx)

theorem coins_applyTx {o : OutPoint} {c : Coin}
    (h : (v.applyTx height isCoinbase tx).coins o = some c) :
    v.coins o = some c ∨ (o, c) ∈ tx.created height isCoinbase := by
  by_cases hk : o ∈ keys (tx.coinLog height isCoinbase)
  · have hmem := mem_of_replay v.coins hk
    simp only [View.applyTx] at h
    rw [h] at hmem
    rcases List.mem_append.mp hmem with hmem | hmem
    · split at hmem
      · cases hmem
      · obtain ⟨input, -, heq⟩ := List.mem_map.mp hmem
        cases heq
    · obtain ⟨item, hitem, heq⟩ := List.mem_map.mp hmem
      cases heq
      exact .inr hitem
  · exact .inl ((replay_of_notMem v.coins hk).symm.trans h)

theorem coins_applyTxs {o : OutPoint} {c : Coin} : ∀ {txs : List Transaction} {v : View},
    (v.applyTxs height txs).coins o = some c →
      v.coins o = some c ∨ ∃ tx ∈ txs, (o, c) ∈ tx.created height false
  | [], _, h => .inl h
  | tx :: txs, v, h => by
    have htail : (v.applyTx height false tx).coins o = some c ∨
        ∃ tx ∈ txs, (o, c) ∈ tx.created height false := coins_applyTxs h
    rcases htail with h | ⟨t, ht, hc⟩
    · rcases coins_applyTx h with h | h
      · exact .inl h
      · exact .inr ⟨tx, List.mem_cons_self .., h⟩
    · exact .inr ⟨t, List.mem_cons_of_mem _ ht, hc⟩

theorem Live.applyTx (h : Live v) (height : UInt32) (isCoinbase : Bool) (tx : Transaction) :
    Live (v.applyTx height isCoinbase tx) := by
  intro o c hc
  rcases coins_applyTx hc with hc | hc
  · exact h o c hc
  · exact (Transaction.created_fields hc).2.2

theorem Live.applyTxs (height : UInt32) : ∀ (txs : List Transaction) {v : View}, Live v →
    Live (v.applyTxs height txs)
  | [], _, h => h
  | tx :: txs, _, h => Live.applyTxs height txs (h.applyTx height false tx)

theorem restored_of_mem_zip (hsp : Spendable v.coins v.leaf tx.inputs spent) (hlive : Live v)
    {item : TxInput × Coin} (h : item ∈ tx.inputs.zip spent) :
    v.coins item.1.outpoint = some item.2.restored := by
  obtain ⟨i, hi, hget⟩ := List.mem_iff_getElem.mp h
  have hfound := congrArg (fun l => l[i]?) hsp.found
  rw [List.length_zip] at hi
  simp only [List.getElem?_map, List.getElem?_eq_getElem (show i < tx.inputs.length by omega),
    List.getElem?_eq_getElem (show i < spent.length by omega), Option.map_some,
    Option.some.injEq] at hfound
  rw [List.getElem_zip] at hget
  cases hget
  have hspent := hlive _ _ hfound
  rw [hfound]
  simp only [Coin.restored, Option.some.injEq]
  rw [← hspent]

/-- **Undo takes a transaction back**, up to `R`, when the places of its outputs may be empty. -/
theorem Rel.undoTx (hR : ∀ a, R a a) (hsp : Spendable v.coins v.leaf tx.inputs spent)
    (hlive : Live v) (hfresh : ∀ o ∈ outpointsOf tx, R none (v.coins o))
    (hx : Rel R x (v.applyTx height false tx)) : Rel R (x.undoTx tx spent) v := by
  refine ⟨fun o => ?_, funext fun key => ?_⟩
  · refine replay_undo_rel hx.coins (fun k hk => Transaction.mem_keys_coinUndo hsp.length_eq hk)
      (fun k hk => ?_) o
    -- restored inputs are written last, so they decide where they are named
    by_cases hin : k ∈ keys ((tx.inputs.zip spent).map fun item =>
        (item.1.outpoint, some item.2.restored))
    · rw [Transaction.coinUndo, replay_append,
        replay_eq_of_forall _ hin (a := v.coins k) fun b hb => by
          obtain ⟨item, hitem, heq⟩ := List.mem_map.mp hb
          cases heq
          exact (restored_of_mem_zip hsp hlive hitem).symm]
      exact hR _
    · rw [Transaction.coinUndo, keys_append, List.mem_append] at hk
      have hout : k ∈ keys ((outpointsOf tx).map fun o => (o, (none : Option Coin))) :=
        hk.resolve_right hin
      rw [Transaction.coinUndo, replay_append, replay_of_notMem _ hin,
        replay_eq_of_forall x.coins hout (a := none) fun b hb => by
          obtain ⟨o', -, heq⟩ := List.mem_map.mp hb
          exact (congrArg Prod.snd heq).symm]
      exact hfresh k (by simpa using hout)
  · have hleaf : ∀ k, x.leaf k = replay (tx.leafLog false) v.leaf k := congrFun hx.leaf
    refine replay_undo_rel hleaf (fun k hk => ?_) (fun k hk => ?_) key
    · simpa [Transaction.leafLog, Transaction.leafUndo, keys] using hk
    · have hmem : k ∈ tx.leaves := by simpa [Transaction.leafUndo, keys] using hk
      rw [replay_eq_of_forall x.leaf hk (a := false) fun b hb => by
        obtain ⟨k', -, heq⟩ := List.mem_map.mp hb
        exact (congrArg Prod.snd heq).symm]
      exact (hsp.fresh k hmem).symm

theorem Rel.eraseTx (hfresh : ∀ o ∈ outpointsOf tx, R none (v.coins o))
    (hx : Rel R x (v.applyTx height true tx)) : Rel R (x.eraseTx tx) v := by
  refine ⟨fun o => ?_, hx.leaf⟩
  refine replay_undo_rel hx.coins (fun k hk => ?_) (fun k hk => ?_) o
  · rcases Transaction.mem_keys_coinLog hk with ⟨h, -⟩ | ⟨c, hc⟩
    · cases h
    · simpa [keys] using Transaction.mem_outpointsOf_of_created hc
  · rw [replay_eq_of_forall x.coins hk (a := none) fun b hb => by
      obtain ⟨o', -, heq⟩ := List.mem_map.mp hb
      exact (congrArg Prod.snd heq).symm]
    exact hfresh k (by simpa [keys] using hk)

end View

/-! ## 2. What the second phase asks of a transaction -/

/-- The guards of `ApplyBlockTwoPhase` on the values, and what `ApplyTransaction` asks. -/
structure TxApplies (v : View) (tx : Transaction) (spent : List Coin) : Prop where
  spendable : Spendable v.coins v.leaf tx.inputs spent
  value : ∃ valueIn valueOut, (∀ i, sumCoins i 0 spent = .ok valueIn) ∧
    tx.getValueOut = .ok valueOut ∧ ¬ (valueOut < 0 ∨ valueIn < valueOut)

/-- Transactions apply one after the other, spending the coins `spents`. -/
def TxsApply (height : UInt32) : View → List Transaction → List (List Coin) → Prop
  | _, [], [] => True
  | v, tx :: txs, spent :: spents =>
    TxApplies v tx spent ∧ TxsApply height (v.applyTx height false tx) txs spents
  | _, _, _ => False

namespace TxsApply

variable {height : UInt32} {x v : View} {R : Option Coin → Option Coin → Prop}

theorem length_eq : ∀ {txs : List Transaction} {spents : List (List Coin)} {v : View},
    TxsApply height v txs spents → spents.length = txs.length
  | [], [], _, _ => rfl
  | _ :: txs, _ :: spents, v, h => by
    rw [List.length_cons, List.length_cons, length_eq h.2]

theorem mono : ∀ {txs : List Transaction} {spents : List (List Coin)} {x v : View},
    TxsApply height x txs spents → View.Rel Below x v → TxsApply height v txs spents
  | [], [], _, _, _, _ => trivial
  | tx :: _, _ :: _, _, _, h, hrel =>
    ⟨⟨hrel.leaf ▸ h.1.spendable.mono hrel.coins, h.1.value⟩,
      mono h.2 (hrel.applyTx Below.refl height false tx)⟩

theorem unique : ∀ {txs : List Transaction} {spents spents' : List (List Coin)} {v : View},
    TxsApply height v txs spents → TxsApply height v txs spents' → spents = spents'
  | [], [], [], _, _, _ => rfl
  | tx :: txs, spent :: spents, spent' :: spents', v, h, h' => by
    rw [h.1.spendable.spent_unique h'.1.spendable, unique h.2 h'.2]

/-- **Undo takes the transactions back**, up to `R`. -/
theorem undo (hR : ∀ a, R a a) : ∀ {txs : List Transaction} {spents : List (List Coin)}
    {x v : View}, TxsApply height v txs spents → v.Live →
      (∀ pre tx post, txs = pre ++ tx :: post →
        ∀ o ∈ outpointsOf tx, R none ((v.applyTxs height pre).coins o)) →
      View.Rel R x (v.applyTxs height txs) → View.Rel R (x.undoTxs txs spents) v
  | [], [], _, _, _, _, _, hx => hx
  | tx :: txs, spent :: spents, x, v, h, hlive, hfresh, hx => by
    have htail : View.Rel R (x.undoTxs txs spents) (v.applyTx height false tx) :=
      undo hR h.2 (hlive.applyTx height false tx)
        (fun pre t post heq => hfresh (tx :: pre) t post (by rw [heq]; rfl)) hx
    exact htail.undoTx hR h.1.spendable hlive (hfresh [] tx txs rfl)

end TxsApply

namespace UTXOSet

variable {tx : Transaction} {height : UInt32} {spent : List Coin} {u : UTXOSet} {i : Nat}

/-- The set `u'` shows the view `v`, is as well represented as `u` was, and differs from `u` only at
the outpoints of `T` and the leaves of `L`. -/
structure Shows (T : Set OutPoint) (L : Set NoiseLeafKey) (u : UTXOSet) (v : View) (u' : UTXOSet) :
    Prop where
  view : u'.view = v
  rep : Rep u → Rep u'
  within : Within T L u u'

variable {T : Set OutPoint} {L : Set NoiseLeafKey}

theorem Shows.refl (T : Set OutPoint) (L : Set NoiseLeafKey) (u : UTXOSet) : Shows T L u u.view u :=
  ⟨rfl, id, Within.refl T L u⟩

theorem Shows.trans {u₁ u₂ u₃ : UTXOSet} {v v' : View} (h₁ : Shows T L u₁ v u₂)
    (h₂ : Shows T L u₂ v' u₃) : Shows T L u₁ v' u₃ :=
  ⟨h₂.view, fun h => h₂.rep (h₁.rep h), h₁.within.trans h₂.within⟩

/-- All outpoints and leaves that a transaction names are in `T` and `L`. -/
structure Inside (T : Set OutPoint) (L : Set NoiseLeafKey) (tx : Transaction) : Prop where
  outputs : ∀ o ∈ outpointsOf tx, o ∈ T
  inputs : ∀ input ∈ tx.inputs, input.outpoint ∈ T
  leaves : ∀ key ∈ tx.leaves, key ∈ L

theorem inside_univ (tx : Transaction) : Inside Set.univ Set.univ tx :=
  ⟨fun _ _ => Set.mem_univ _, fun _ _ => Set.mem_univ _, fun _ _ => Set.mem_univ _⟩

theorem Inside.coinLog (h : Inside T L tx) {isCoinbase : Bool} {o : OutPoint}
    (ho : o ∈ keys (tx.coinLog height isCoinbase)) : o ∈ T := by
  rcases Transaction.mem_keys_coinLog ho with ⟨-, ho⟩ | ⟨c, hc⟩
  · obtain ⟨input, hi, rfl⟩ := List.mem_map.mp ho
    exact h.inputs input hi
  · exact h.outputs o (Transaction.mem_outpointsOf_of_created hc)

theorem shows_applied (u : UTXOSet) (h : Inside T L tx) (height : UInt32)
    (hlen : spent.length = tx.inputs.length) :
    Shows T L u (u.view.applyTx height false tx) (u.applied tx height spent) where
  view := by
    rw [view, getCoin_applied u tx height hlen, isNoiseLeafSpent_applied]
    rfl
  rep hrep := hrep.applied tx height spent
  within := Within.applied (fun _ ho => h.coinLog ho) h.leaves u spent

theorem shows_coinbase (u : UTXOSet) (h : Inside T L tx) (height : UInt32) :
    Shows T L u (u.view.applyTx height true tx) (u.addCoins (tx.created height true)) where
  view := by
    rw [view, getCoin_coinbase, isNoiseLeafSpent_addCoins]
    rfl
  rep hrep := hrep.addCoins _
  within := Within.addCoins
    (fun item hi => h.outputs _ (Transaction.mem_outpointsOf_of_created hi)) u

theorem fetchCoins_eq_some : ∀ {inputs : List TxInput} {coins : List Coin},
    u.fetchCoins inputs = some coins ↔
      inputs.map (fun input => u.getCoin input.outpoint) = coins.map some
  | [], coins => by
    cases coins <;> simp [fetchCoins]
  | input :: rest, coins => by
    unfold fetchCoins
    cases hcoin : u.getCoin input.outpoint with
    | none => cases coins <;> simp [hcoin]
    | some c =>
      cases coins with
      | nil => simp
      | cons c' coins =>
        simp only [Option.map_eq_some_iff, List.cons.injEq, List.map_cons, hcoin,
          Option.some.injEq]
        constructor
        · rintro ⟨cs, hcs, rfl, rfl⟩
          exact ⟨rfl, fetchCoins_eq_some.mp hcs⟩
        · rintro ⟨rfl, hcs⟩
          exact ⟨coins, fetchCoins_eq_some.mpr hcs, rfl, rfl⟩

theorem sumCoins_eq_ok {j : Nat} : ∀ {coins : List Coin} {valueIn r : Int64},
    sumCoins i valueIn coins = .ok r → sumCoins j valueIn coins = .ok r
  | [], _, _, h => h
  | c :: coins, valueIn, r, h => by
    unfold sumCoins at h ⊢
    split at h
    · cases h
    · rename_i hrange
      rw [if_neg hrange]
      dsimp only at h ⊢
      split at h
      · cases h
      · rename_i hover
        rw [if_neg hover]
        exact sumCoins_eq_ok h

theorem applyOne_eq_ok {r : UTXOSet × List Coin} :
    u.applyOne height i tx = .ok r ↔
      ∃ spent, TxApplies u.view tx spent ∧ r = (u.applied tx height spent, spent) := by
  constructor
  · intro h
    unfold applyOne at h
    split at h
    · cases h
    · rename_i coins hfetch
      split at h
      · cases h
      · rename_i valueIn hsum
        split at h
        · cases h
        · rename_i valueOut hout
          split at h
          · cases h
          · rename_i hguard
            split at h
            · cases h
            · rename_i result happly
              cases h
              obtain ⟨spent, hsp, rfl⟩ := applyTransaction_eq_ok.mp happly
              have hcoins : coins = spent := by
                have hfound := fetchCoins_eq_some.mp hfetch
                rw [hsp.found] at hfound
                exact (List.map_injective_iff.mpr (Option.some_injective _) hfound).symm
              subst hcoins
              exact ⟨coins, ⟨hsp, valueIn, valueOut, fun j => sumCoins_eq_ok hsum, hout, hguard⟩, rfl⟩
  · rintro ⟨spent, ⟨hsp, valueIn, valueOut, hsum, hout, hguard⟩, rfl⟩
    unfold applyOne
    rw [fetchCoins_eq_some.mpr hsp.found]
    dsimp only
    rw [hsum i]
    dsimp only
    rw [hout]
    dsimp only
    rw [if_neg hguard, applyTransaction_eq_ok.mpr ⟨spent, hsp, rfl⟩]

theorem sumCoins_ne_threw {what : String} : ∀ {coins : List Coin} (valueIn : Int64),
    sumCoins i valueIn coins ≠ .error (.threw what)
  | [], valueIn, h => nomatch h
  | c :: coins, valueIn, h => by
    unfold sumCoins at h
    split at h
    · cases h
    · dsimp only at h
      split at h
      · cases h
      · exact sumCoins_ne_threw _ h

theorem applyOne_threw {what : String} (h : u.applyOne height i tx = .error (.threw what)) :
    tx.getValueOut = .error what := by
  unfold applyOne at h
  split at h
  · cases h
  · split at h
    · rename_i e hsum
      cases h
      exact absurd hsum (sumCoins_ne_threw _)
    · split at h
      · rename_i what' hout
        cases h
        exact hout
      · split at h
        · cases h
        · split at h <;> cases h

/-- What the loop leaves behind when it stops at an error: a refusal is rolled back. -/
def stopped (u : UTXOSet) (coinbase : Option Transaction)
    (appliedHere : List (Transaction × List Coin)) : ApplyError → UTXOSet
  | .refused _ => u.rollback coinbase appliedHere
  | .threw _ => u

/-- **The second phase runs to its end or stops at a transaction that does not apply.** -/
theorem applyFrom_cases (coinbase : Option Transaction) (height : UInt32) :
    ∀ (txs : List Transaction) (i : Nat) (appliedHere : List (Transaction × List Coin))
      (u : UTXOSet),
      (∃ spents u', TxsApply height u.view txs spents ∧
        Shows .univ .univ u (u.view.applyTxs height txs) u' ∧
        applyFrom coinbase height i txs appliedHere u =
          (u', .ok ⟨(appliedHere.reverse.map Prod.snd ++ spents).map TxUndo.mk⟩)) ∨
      (∃ pre spents u₁ e, (∀ spents', ¬ TxsApply height u.view txs spents') ∧ pre <+: txs ∧
        TxsApply height u.view pre spents ∧ Shows .univ .univ u (u.view.applyTxs height pre) u₁ ∧
        (∀ what, e = .threw what → ∃ tx ∈ txs, tx.getValueOut = .error what) ∧
        applyFrom coinbase height i txs appliedHere u =
          (u₁.stopped coinbase ((pre.zip spents).reverse ++ appliedHere) e, .error e))
  | [], i, appliedHere, u => by
    refine .inl ⟨[], u, trivial, Shows.refl _ _ u, ?_⟩
    simp [applyFrom, Function.comp_def]
  | tx :: txs, i, appliedHere, u => by
    unfold applyFrom
    cases hone : u.applyOne height i tx with
    | error e =>
      refine .inr ⟨[], [], u, e, ?_, List.nil_prefix, trivial, Shows.refl _ _ u, ?_, ?_⟩
      · intro spents' h
        cases spents' with
        | nil => exact h
        | cons spent spents' =>
          rw [applyOne_eq_ok.mpr ⟨spent, h.1, rfl⟩] at hone
          cases hone
      · rintro what rfl
        exact ⟨tx, List.mem_cons_self .., applyOne_threw hone⟩
      · cases e <;> rfl
    | ok r =>
      obtain ⟨spent, htx, rfl⟩ := applyOne_eq_ok.mp hone
      have hshow := shows_applied u (inside_univ tx) height htx.spendable.length_eq
      rcases applyFrom_cases coinbase height txs (i + 1) ((tx, spent) :: appliedHere)
        (u.applied tx height spent) with
        ⟨spents, u', hall, hshows, hrun⟩ | ⟨pre, spents, u₁, e, hno, hpre, hall, hshows, hwhat, hrun⟩
      · rw [hshow.view] at hall hshows
        refine .inl ⟨spent :: spents, u', ⟨htx, hall⟩, hshow.trans hshows, ?_⟩
        dsimp only
        rw [hrun]
        simp
      · rw [hshow.view] at hall hshows hno
        refine .inr ⟨tx :: pre, spent :: spents, u₁, e, ?_, ?_, ⟨htx, hall⟩,
          hshow.trans hshows, ?_, ?_⟩
        · intro spents' h
          cases spents' with
          | nil => exact h
          | cons spent' spents' => exact hno spents' h.2
        · exact List.cons_prefix_cons.mpr ⟨rfl, hpre⟩
        · intro what he
          obtain ⟨t, ht, hout⟩ := hwhat what he
          exact ⟨t, List.mem_cons_of_mem _ ht, hout⟩
        · dsimp only
          rw [hrun]
          simp

/-! ## 4. Undo -/

/-- What `UndoTransaction` needs in order not to give up. -/
structure Undoable (tx : Transaction) (spent : List Coin) : Prop where
  notCoinbase : tx.isCoinbase = false
  parses : ∀ input ∈ tx.inputs, (NoiseProof.readAll input.noiseProof).2 = none
  length_eq : spent.length = tx.inputs.length

theorem undoable_of_applies {v : View} (hcb : tx.isCoinbase = false) (h : TxApplies v tx spent) :
    Undoable tx spent :=
  ⟨hcb, fun input hi => (h.spendable.proved input hi).2, h.spendable.length_eq⟩

theorem undoable_of_txsApply : ∀ {txs : List Transaction}
    {spents : List (List Coin)} {v : View}, (∀ tx ∈ txs, tx.isCoinbase = false) →
      TxsApply height v txs spents → List.Forall₂ Undoable txs spents
  | [], [], _, _, _ => .nil
  | tx :: _, _ :: _, _, hcb, h =>
    .cons (undoable_of_applies (hcb tx (List.mem_cons_self ..)) h.1)
      (undoable_of_txsApply (fun t ht => hcb t (List.mem_cons_of_mem _ ht)) h.2)

theorem shows_undoTransaction (u : UTXOSet) (hin : Inside T L tx) (h : Undoable tx spent) :
    ∃ u', u.undoTransaction tx spent = (u', true) ∧ Shows T L u (u.view.undoTx tx spent) u' := by
  obtain ⟨u', hrun, hcoins, hleaf, hrep, hwithin⟩ :=
    undoTransaction_spec u h.notCoinbase h.parses h.length_eq
  refine ⟨u', hrun, by rw [view, hcoins, hleaf]; rfl, hrep, hwithin (fun o ho => ?_) hin.leaves⟩
  rw [Transaction.keys_coinUndo h.length_eq] at ho
  rcases List.mem_append.mp ho with ho | ho
  · exact hin.outputs o ho
  · obtain ⟨input, hi, rfl⟩ := List.mem_map.mp ho
    exact hin.inputs input hi

theorem shows_undoCoinbase (u : UTXOSet) (hin : Inside T L tx) (hcb : tx.isCoinbase = true) :
    ∃ u', u.undoTransaction tx [] = (u', true) ∧ Shows T L u (u.view.eraseTx tx) u' := by
  refine ⟨_, undoTransaction_coinbase hcb u, ?_,
    fun h => List.foldlRecOn _ _ h fun _ hu o _ => hu.eraseCoin o,
    Within.foldl _ u fun o ho u => Within.eraseCoin (hin.outputs o ho) u⟩
  rw [view, getCoin_eraseAll, isNoiseLeafSpent_eraseAll]
  rfl

theorem shows_rollbackTxs : ∀ {txs : List Transaction} {spents : List (List Coin)} (u : UTXOSet),
    List.Forall₂ Undoable txs spents →
      Shows .univ .univ u (u.view.undoTxs txs spents)
        ((txs.zip spents).reverse.foldl (fun u item => (u.undoTransaction item.1 item.2).1) u)
  | [], [], u, _ => Shows.refl _ _ u
  | tx :: txs, spent :: spents, u, .cons htx htxs => by
    have htail := shows_rollbackTxs u htxs
    obtain ⟨u', hrun, hshow⟩ := shows_undoTransaction _ (inside_univ tx) htx
    rw [htail.view] at hshow
    rw [List.zip_cons_cons, List.reverse_cons, List.foldl_append, List.foldl_cons, List.foldl_nil,
      hrun]
    exact htail.trans hshow

/-- **The rollback of a refused block undoes what was applied.** -/
theorem shows_rollback {txs : List Transaction} {spents : List (List Coin)} {coinbase : Transaction}
    (u : UTXOSet) (hcb : coinbase.isCoinbase = true) (h : List.Forall₂ Undoable txs spents) :
    Shows .univ .univ u ((u.view.undoTxs txs spents).eraseTx coinbase)
      (u.rollback (some coinbase) (txs.zip spents).reverse) := by
  have htxs := shows_rollbackTxs u h
  obtain ⟨u', hrun, hshow⟩ := shows_undoCoinbase
    ((txs.zip spents).reverse.foldl (fun u item => (u.undoTransaction item.1 item.2).1) u)
    (inside_univ coinbase) hcb
  rw [htxs.view] at hshow
  simp only [rollback, hrun]
  exact htxs.trans hshow

theorem undoTxs_append : ∀ (items items' : List (Transaction × TxUndo)) (u : UTXOSet),
    u.undoTxs (items ++ items') =
      match u.undoTxs items with
      | (u, false) => (u, false)
      | (u, true) => u.undoTxs items'
  | [], items', u => rfl
  | (tx, tu) :: items, items', u => by
    rw [List.cons_append, undoTxs, undoTxs]
    cases hrun : u.undoTransaction tx tu.spentCoins with
    | mk u' ok =>
      cases ok
      · rfl
      · exact undoTxs_append items items' u'

/-- The loop of `UndoBlockTwoPhase` is the rollback loop as long as nothing fails. -/
theorem shows_undoTxs : ∀ {txs : List Transaction} {spents : List (List Coin)} (u : UTXOSet),
    (∀ tx ∈ txs, Inside T L tx) → List.Forall₂ Undoable txs spents →
      ∃ u', u.undoTxs (txs.zip (spents.map TxUndo.mk)).reverse = (u', true) ∧
        Shows T L u (u.view.undoTxs txs spents) u'
  | [], [], u, _, _ => ⟨u, rfl, Shows.refl T L u⟩
  | tx :: txs, spent :: spents, u, hin, .cons htx htxs => by
    obtain ⟨u₁, hrun₁, hshow₁⟩ :=
      shows_undoTxs u (fun t ht => hin t (List.mem_cons_of_mem _ ht)) htxs
    obtain ⟨u', hrun, hshow⟩ := shows_undoTransaction u₁ (hin tx (List.mem_cons_self ..)) htx
    rw [hshow₁.view] at hshow
    refine ⟨u', ?_, hshow₁.trans hshow⟩
    rw [List.map_cons, List.zip_cons_cons, List.reverse_cons, undoTxs_append, hrun₁]
    simp only [undoTxs, hrun]

end UTXOSet

/-! ## 5. Whole blocks -/

/-- A coinbase in front, and no other. -/
structure Block.Shape (b : Block) (coinbase : Transaction) (rest : List Transaction) : Prop where
  transactions : b.transactions = coinbase :: rest
  coinbase : coinbase.isCoinbase = true
  rest : ∀ tx ∈ rest, tx.isCoinbase = false

theorem Block.Shape.splitCoinbase {b : Block} {coinbase : Transaction} {rest : List Transaction}
    (h : b.Shape coinbase rest) : b.splitCoinbase = (some coinbase, rest) := by
  rw [Block.splitCoinbase, h.transactions]
  exact if_pos h.coinbase

namespace View

def applyBlock (height : UInt32) (b : Block) (v : View) : View :=
  match b.transactions with
  | [] => v
  | tx :: rest => (v.applyTx height tx.isCoinbase tx).applyTxs height rest

/-- A block whose transactions spent the coins `spents` is undone. -/
def undoBlock (b : Block) (spents : List (List Coin)) (v : View) : View :=
  match b.transactions with
  | [] => v
  | tx :: rest => (v.undoTxs rest spents).eraseTx tx

/-- The transactions of a block apply after its coinbase, spending the coins `spents`. -/
def BlockApplies (height : UInt32) (v : View) (b : Block) (spents : List (List Coin)) : Prop :=
  match b.transactions with
  | [] => False
  | tx :: rest => TxsApply height (v.applyTx height tx.isCoinbase tx) rest spents

/-- A way to compare coins: the same, or at least no other coin. -/
structure Loss (R : Option Coin → Option Coin → Prop) : Prop where
  refl : ∀ a, R a a
  below : ∀ a b, R a b → Below a b

theorem loss_eq : Loss Eq := ⟨fun _ => rfl, fun _ _ h => h ▸ Below.refl _⟩

theorem loss_below : Loss Below := ⟨Below.refl, fun _ _ h => h⟩

theorem Rel.below {R : Option Coin → Option Coin → Prop} {x v : View} (hR : Loss R)
    (h : Rel R x v) : Rel Below x v := ⟨fun o => hR.below _ _ (h.coins o), h.leaf⟩

/-- The places of the outputs of a block may be empty when their turn comes. -/
def Fresh (R : Option Coin → Option Coin → Prop) (height : UInt32) (v : View) (b : Block) : Prop :=
  ∀ tx rest, b.transactions = tx :: rest →
    (∀ o ∈ outpointsOf tx, R none (v.coins o)) ∧
      ∀ pre t post, rest = pre ++ t :: post → ∀ o ∈ outpointsOf t,
        R none (((v.applyTx height tx.isCoinbase tx).applyTxs height pre).coins o)

theorem fresh_below (height : UInt32) (v : View) (b : Block) : Fresh Below height v b :=
  fun _ _ _ => ⟨fun _ _ => Below.none _, fun _ _ _ _ _ _ => Below.none _⟩

variable {R : Option Coin → Option Coin → Prop} {x v : View} {b : Block} {height : UInt32}
  {spents : List (List Coin)}

theorem Rel.applyBlock (hR : ∀ a, R a a) (h : Rel R x v) (height : UInt32) (b : Block) :
    Rel R (x.applyBlock height b) (v.applyBlock height b) := by
  unfold View.applyBlock
  split
  · exact h
  · exact Rel.applyTxs hR height _ (h.applyTx hR height _ _)

theorem Live.applyBlock (h : Live v) (height : UInt32) (b : Block) :
    Live (v.applyBlock height b) := by
  unfold View.applyBlock
  split
  · exact h
  · exact Live.applyTxs height _ (h.applyTx height _ _)

theorem BlockApplies.mono (h : BlockApplies height x b spents) (hrel : Rel Below x v) :
    BlockApplies height v b spents := by
  unfold BlockApplies at h ⊢
  split
  · rename_i heq
    rwa [heq] at h
  · rename_i tx rest heq
    rw [heq] at h
    exact TxsApply.mono h (hrel.applyTx Below.refl height tx.isCoinbase tx)

theorem BlockApplies.unique {spents' : List (List Coin)} (h : BlockApplies height v b spents)
    (h' : BlockApplies height v b spents') : spents = spents' := by
  unfold BlockApplies at h h'
  split at h
  · exact h.elim
  · rename_i tx rest heq
    rw [heq] at h'
    exact TxsApply.unique h h'

theorem Rel.undoBlock {coinbase : Transaction} {rest : List Transaction} (hshape : b.Shape coinbase rest)
    (hR : Loss R) (happ : BlockApplies height v b spents) (hlive : Live v)
    (hfresh : Fresh R height v b) (hx : Rel R x (v.applyBlock height b)) :
    Rel R (x.undoBlock b spents) v := by
  obtain ⟨hout, hrest⟩ := hfresh coinbase rest hshape.transactions
  simp only [View.applyBlock, hshape.transactions, hshape.coinbase] at hx
  simp only [BlockApplies, hshape.transactions, hshape.coinbase] at happ
  rw [hshape.coinbase] at hrest
  simp only [View.undoBlock, hshape.transactions]
  exact (TxsApply.undo hR.refl happ (hlive.applyTx height true coinbase) hrest hx).eraseTx hout

end View

namespace UTXOSet

variable {T : Set OutPoint} {L : Set NoiseLeafKey} {b : Block} {coinbase : Transaction}
  {rest : List Transaction}

/-- **`ApplyBlockTwoPhase` applies the block, or refuses it and takes back what it did.**  An
exception can only come from `GetValueOut`. -/
theorem applyBlockTwoPhase_cases (u : UTXOSet) (hshape : b.Shape coinbase rest) (height : UInt32) :
    (∃ spents u', u.view.BlockApplies height b spents ∧
      Shows .univ .univ u (u.view.applyBlock height b) u' ∧
      u.applyBlockTwoPhase b height = (u', .ok ⟨spents.map TxUndo.mk⟩)) ∨
    ((∀ spents, ¬ u.view.BlockApplies height b spents) ∧
      ∃ u' e, u.applyBlockTwoPhase b height = (u', .error e) ∧ (Rep u → Rep u') ∧
        Within .univ .univ u u' ∧
        (∀ what, e = .threw what → ∃ tx ∈ rest, tx.getValueOut = .error what) ∧
        (∀ log, e = .refused log → ∀ R v, View.Loss R → View.Rel R u.view v → v.Live →
          View.Fresh R height v b → View.Rel R u'.view v)) := by
  have hcoin := shows_coinbase u (inside_univ coinbase) height
  have hrun₀ : u.applyBlockTwoPhase b height = applyFrom (some coinbase) height 1 rest []
      (u.addCoins (coinbase.created height true)) := by
    simp only [applyBlockTwoPhase, hshape.splitCoinbase, applyTransaction_coinbase]
  have happlies : ∀ v : View, ∀ spents, v.BlockApplies height b spents ↔
      TxsApply height (v.applyTx height true coinbase) rest spents := fun v spents => by
    simp only [View.BlockApplies, hshape.transactions, hshape.coinbase]
  rw [hrun₀]
  rcases applyFrom_cases (some coinbase) height rest 1 []
    (u.addCoins (coinbase.created height true)) with
    ⟨spents, u', hall, hshows, hrun⟩ | ⟨pre, spents, u₁, e, hno, hpre, hall, hshows, hwhat, hrun⟩
  · rw [hcoin.view] at hall hshows
    refine .inl ⟨spents, u', (happlies _ _).mpr hall, ?_, hrun⟩
    have hview : u.view.applyBlock height b =
        (u.view.applyTx height true coinbase).applyTxs height rest := by
      simp only [View.applyBlock, hshape.transactions, hshape.coinbase]
    rw [hview]
    exact hcoin.trans hshows
  · rw [hcoin.view] at hall hshows hno
    rw [List.append_nil] at hrun
    have hund := undoable_of_txsApply (fun t ht => hshape.rest t (hpre.subset ht)) hall
    have hback := shows_rollback u₁ hshape.coinbase hund
    have hu₁ := hcoin.trans hshows
    refine .inr ⟨fun spents' h => hno spents' ((happlies _ _).mp h), _, e, hrun, ?_, ?_, hwhat, ?_⟩
    · cases e with
      | refused log => exact fun h => hback.rep (hu₁.rep h)
      | threw what => exact hu₁.rep
    · cases e with
      | refused log => exact hu₁.within.trans hback.within
      | threw what => exact hu₁.within
    · rintro log rfl R v hR hrel hlive hfresh
      obtain ⟨hout, hrest⟩ := hfresh coinbase rest hshape.transactions
      rw [hshape.coinbase] at hrest
      have hrel₁ := hrel.applyTx hR.refl height true coinbase
      have hx : View.Rel R u₁.view ((v.applyTx height true coinbase).applyTxs height pre) := by
        rw [hu₁.view]
        exact View.Rel.applyTxs hR.refl height pre hrel₁
      obtain ⟨post, rfl⟩ := hpre
      have hund := TxsApply.undo hR.refl (hall.mono (hrel₁.below hR))
        (hlive.applyTx height true coinbase) (fun pre' t post' heq => hrest pre' t (post' ++ post)
          (by rw [heq, List.append_assoc, List.cons_append])) hx
      simp only [stopped, hback.view]
      exact hund.eraseTx hout

/-- **`UndoBlockTwoPhase` of a block that was applied.** -/
theorem undoBlockTwoPhase_spec (u : UTXOSet) (hshape : b.Shape coinbase rest)
    (hin : ∀ tx ∈ b.transactions, Inside T L tx) {spents : List (List Coin)}
    (hund : List.Forall₂ Undoable rest spents) :
    ∃ u', u.undoBlockTwoPhase b ⟨spents.map TxUndo.mk⟩ = (u', true) ∧
      Shows T L u (u.view.undoBlock b spents) u' := by
  rw [hshape.transactions] at hin
  obtain ⟨u₁, hrun₁, hshow₁⟩ :=
    shows_undoTxs u (fun tx ht => hin tx (List.mem_cons_of_mem _ ht)) hund
  obtain ⟨u', hrun, hshow⟩ :=
    shows_undoCoinbase u₁ (hin coinbase (List.mem_cons_self ..)) hshape.coinbase
  rw [hshow₁.view] at hshow
  refine ⟨u', ?_, ?_⟩
  · unfold undoBlockTwoPhase
    simp only [hshape.splitCoinbase]
    rw [if_neg (by simp [hund.length_eq]), hrun₁]
    exact hrun
  · rw [View.undoBlock, hshape.transactions]
    exact hshow₁.trans hshow

/-! ## 6. Replay -/

end UTXOSet

end Moneu
