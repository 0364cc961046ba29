/-
# Totals

The coins of a node are together worth at most the subsidies of the heights of its chain.  That bounds
every running total that the code makes of them while it checks or applies a block, so none of these
machine sums wraps around, guarded or not.
-/
import Mathlib.Algebra.BigOperators.Ring.Finset
import Moneu.Chain.Active
import Moneu.Chain.Supply

namespace Moneu

open NetParams Journal UTXOSet BlockData ChainState MachineInt

/-! ## 1. Totals that fit -/

theorem checkMoneyRange_toUInt64 {v : Int64} (h : MoneyRange v) :
    NetParams.checkMoneyRange v.toUInt64 = true := by
  have hcast := toNat_toUInt64 h.nonneg
  have hmax : (MAX_MONEY.toUInt64.toNat : Int) = MAX_MONEY.toInt := toNat_toUInt64 (by decide)
  have hle := h.2
  unfold NetParams.checkMoneyRange
  rw [decide_eq_true_eq, UInt64.le_iff_toNat_le]
  omega

theorem MoneyRange.add {a b : Int64} (ha : MoneyRange a) (hb : MoneyRange b)
    (h : a.toInt + b.toInt ≤ MAX_MONEY.toInt) :
    (a + b).toInt = a.toInt + b.toInt ∧ MoneyRange (a + b) := by
  have hmax := toInt_MAX_MONEY
  obtain ⟨ha₀, -⟩ := ha
  obtain ⟨hb₀, -⟩ := hb
  have hsum : (a + b).toInt = a.toInt + b.toInt := toInt_add_of_fits (by omega) (by omega)
  exact ⟨hsum, by rw [hsum]; omega, by rw [hsum]; exact h⟩

/-- The guarded sum of `ApplyBlockTwoPhase` does not refuse coins whose total fits. -/
theorem sumCoins_fits (i : Nat) : ∀ {coins : List Coin} {valueIn : Int64}, MoneyRange valueIn →
    (∀ c ∈ coins, MoneyRange c.value) → valueIn.toInt + Coin.total coins ≤ MAX_MONEY.toInt →
      ∃ r, sumCoins i valueIn coins = .ok r ∧ r.toInt = valueIn.toInt + Coin.total coins
  | [], valueIn, _, _, _ => ⟨valueIn, rfl, by simp⟩
  | c :: coins, valueIn, hin, hrange, hfits => by
    obtain ⟨hc, hrange⟩ := List.forall_mem_cons.mp hrange
    have hrest := Coin.total_nonneg hrange
    rw [Coin.total_cons] at hfits
    obtain ⟨hsum, hnext⟩ := hin.add hc (by omega)
    obtain ⟨r, hr, heq⟩ := sumCoins_fits i hnext hrange (by rw [hsum]; omega)
    refine ⟨r, ?_, by rw [heq, hsum, Coin.total_cons]; omega⟩
    unfold sumCoins
    have hnonneg : ¬ (c.value < 0 ∨ !NetParams.checkMoneyRange c.value.toUInt64) := by
      rw [checkMoneyRange_toUInt64 hc]
      simpa using hc.nonneg
    have hgrows : ¬ (valueIn + c.value < valueIn ∨
        !NetParams.checkMoneyRange (valueIn + c.value).toUInt64) := by
      rw [checkMoneyRange_toUInt64 hnext, Int64.lt_iff_toInt_lt, hsum]
      have hpos := hc.1
      simp only [Bool.not_true, Bool.false_eq_true, or_false]
      omega
    rw [if_neg hnonneg]
    rw [if_neg hgrows, hr]

theorem MoneyRange.safeAdd {a b : Int64} (ha : MoneyRange a) (hb : MoneyRange b) :
    TxValidation.safeAdd a b = some (a + b) := by
  have hmax := toInt_MAX_MONEY
  obtain ⟨ha₀, ha₁⟩ := ha
  obtain ⟨hb₀, hb₁⟩ := hb
  unfold TxValidation.safeAdd
  rw [if_neg, if_neg]
  · rw [Int64.lt_iff_toInt_lt, toInt_zero]
    omega
  · rintro ⟨-, hover⟩
    rw [gt_iff_lt, Int64.lt_iff_toInt_lt, Int64.toInt_sub, Int.bmod_def, toInt_maxValue] at hover
    omega

/-- The places where a UTXO set may have a coin. -/
def UTXOSet.places (u : UTXOSet) : Finset OutPoint := u.cache.keys.toFinset ∪ u.db.coins.keys.toFinset

/-- The sum of the values of all unspent coins. -/
def UTXOSet.totalValue (u : UTXOSet) : Int :=
  ∑ o ∈ u.places, ((u.getCoin o).map fun c => c.value.toInt).getD 0

theorem UTXOSet.mem_places {u : UTXOSet} {o : OutPoint} {c : Coin} (h : u.getCoin o = some c) :
    o ∈ u.places := by
  unfold UTXOSet.places
  rw [Finset.mem_union, List.mem_toFinset, List.mem_toFinset]
  unfold getCoin at h
  split at h
  · rename_i entry hentry
    exact .inl (AList.mem_keys.mpr (AList.lookup_isSome.mp (by rw [hentry]; rfl)))
  · split at h
    · cases h
    · rename_i coin hcoin
      exact .inr (AList.mem_keys.mpr (AList.lookup_isSome.mp (by rw [hcoin]; rfl)))

section Node

variable {s : ChainState} {p : List Block}

theorem value_pos_of_viewOf {o : OutPoint} {c : Coin} (h : (viewOf p).coins o = some c) :
    0 < c.value := by
  obtain ⟨b, q, -, tx, -, isCoinbase, hc⟩ := coins_viewOf h
  obtain ⟨j, out, pkh, -, -, hpos, -, -, rfl⟩ := mem_newCoins hc
  exact hpos

/-- **The coins of a node are worth at most the subsidies of its chain.** -/
theorem Inv.capped (h : Inv s p) : Capped worth s.utxoSet.getCoin (subsidiesBelow p.length) := by
  intro S
  refine le_trans (Finset.sum_le_sum fun o _ => ?_) (h.valid.capped S)
  cases hc : s.utxoSet.getCoin o with
  | none => exact Nat.zero_le _
  | some c => rw [show (viewOf p).coins o = some c from h.below.coins o c hc]

theorem Inv.subsidies_le (h : Inv s p) : (subsidiesBelow p.length : Int) ≤ MAX_MONEY.toInt :=
  subsidiesBelow_le (h.valid.length_le.trans (by norm_num))

theorem Inv.range (h : Inv s p) {o : OutPoint} {c : Coin} (hc : s.utxoSet.getCoin o = some c) :
    MoneyRange c.value := by
  have hpos := value_pos_of_viewOf (h.below.coins o c hc)
  rw [Int64.lt_iff_toInt_lt, toInt_zero] at hpos
  have hone := h.capped {o}
  rw [Finset.sum_singleton, hc] at hone
  have hworth : (worth (some c) : Int) = c.value.toInt := Int.toNat_of_nonneg hpos.le
  have hle := h.subsidies_le
  exact ⟨hpos.le, by omega⟩

/-- Coins at different places are together worth at most `MAX_MONEY`. -/
theorem Inv.total_le (h : Inv s p) {inputs : List TxInput} {coins : List Coin}
    (hnodup : (inputs.map TxInput.outpoint).Nodup)
    (hfound : inputs.map (fun input => s.utxoSet.getCoin input.outpoint) = coins.map some) :
    (∀ c ∈ coins, MoneyRange c.value) ∧ Coin.total coins ≤ MAX_MONEY.toInt := by
  have hrange : ∀ c ∈ coins, MoneyRange c.value := by
    intro c hc
    have hmem : some c ∈ coins.map some := List.mem_map_of_mem hc
    rw [← hfound] at hmem
    obtain ⟨input, -, heq⟩ := List.mem_map.mp hmem
    exact h.range heq
  refine ⟨hrange, ?_⟩
  have hsum := h.capped (inputs.map TxInput.outpoint).toFinset
  rw [List.sum_toFinset _ hnodup] at hsum
  have hin := sum_inputs_eq hfound hrange
  have hle := h.subsidies_le
  omega

end Node

/-! ## 3. Running totals -/

section AtWork

variable [Ed25519]

/-- The states a node goes through, those in the middle of `AcceptBlock` included: a block has been
stored, the tip has been taken off, a block of a branch has been checked and connected. -/
inductive AtWork : ChainState → Prop
  | reachable {s : ChainState} : Reachable s → AtWork s
  | store {s : ChainState} {now : UInt64} {block : Block} {parent : BlockIndexEntry} : AtWork s →
      Storable s now block parent →
      AtWork (s.storeBlock block (parent.nHeight + 1)
        (addChainWork parent.nChainWork block.header.bits)
        (block.header.prevBlockHash = s.bestChain.blockHash))
  | disconnect {s : ChainState} : AtWork s → AtWork s.disconnectTip.1
  | connect {s : ChainState} (hash : Bytes32) : AtWork s →
      AtWork (s.connectBranchBlock noFaults false hash).1

theorem AtWork.inv {s : ChainState} (h : AtWork s) : ∃ p, Inv s p := by
  induction h with
  | reachable h => exact h.inv
  | store _ hst ih =>
    obtain ⟨p, hp⟩ := ih
    exact ⟨p, (hp.storeBlock hst.new hst.checked hst.onParent _).1⟩
  | disconnect _ ih =>
    obtain ⟨p, hp⟩ := ih
    obtain ⟨b, p, rfl⟩ := hp.toFollows.cons
    cases p with
    | nil =>
      rw [ChainState.disconnectTip, if_pos (show _ = 0 from hp.toFollows.tip_height)]
      exact ⟨_, hp⟩
    | cons q p =>
      obtain ⟨s', hrun, hinv, -⟩ := hp.disconnectTip
      rw [hrun]
      exact ⟨_, hinv⟩
  | connect hash _ ih =>
    obtain ⟨p, hp⟩ := ih
    rcases hp.connectBranchBlock false hash with ⟨s', b, hrun, -, -, hinv⟩ | ⟨s', _, hrun, hinv, -⟩
    · rw [hrun]
      exact ⟨_, (hinv (by simp)).1⟩
    · rw [hrun]
      exact ⟨_, hinv⟩

end AtWork

end Moneu
