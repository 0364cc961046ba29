/-
# Supply

A block that was accepted next to the coins of a chain spends what it pays out, but for the subsidy.
So the coins of a `Valid` chain are together worth at most the subsidies of its heights, and these
add up to at most `MAX_MONEY`, however long the chain is.
-/
import Mathlib.Algebra.BigOperators.Intervals
import Moneu.Chain.Ledger

namespace Moneu

open NetParams Journal UTXOSet MachineInt

/-! ## 1. The worth of a journal -/

def worth : Option Coin → Nat
  | none => 0
  | some c => c.value.toInt.toNat

def written (log : List (OutPoint × Option Coin)) : Nat := (log.map fun w => worth w.2).sum

theorem sum_newCoins_le (txHash : Bytes32) (height : UInt32) (isCoinbase : Bool) :
    ∀ (i : Nat) {outputs : List TxOutput}, (∀ out ∈ outputs, 0 ≤ out.value.toInt) →
      ((((newCoins txHash height isCoinbase i outputs).map fun item =>
        worth (some item.2)).sum : Nat) : Int) ≤ (outputs.map fun out => out.value.toInt).sum
  | _, [], _ => by simp [newCoins]
  | i, out :: rest, h => by
    have hout := h out (List.mem_cons_self ..)
    have hrest := sum_newCoins_le txHash height isCoinbase (i + 1) fun o ho =>
      h o (List.mem_cons_of_mem _ ho)
    rw [List.map_cons, List.sum_cons]
    unfold newCoins
    split
    · exact hrest.trans (by omega)
    · split
      · exact hrest.trans (by omega)
      · split
        · exact hrest.trans (by omega)
        · rename_i pubkeyHash _
          have hworth : (worth (some (Coin.unspent out.value pubkeyHash height isCoinbase)) : Int) =
              out.value.toInt := Int.toNat_of_nonneg hout
          rw [List.map_cons, List.sum_cons, Nat.cast_add, hworth]
          omega

theorem written_append (log log' : List (OutPoint × Option Coin)) :
    written (log ++ log') = written log + written log' := by
  simp [written]

theorem written_coinLog_le {tx : Transaction} (h : ∀ out ∈ tx.outputs, 0 ≤ out.value.toInt)
    (height : UInt32) (isCoinbase : Bool) :
    (written (tx.coinLog height isCoinbase) : Int) ≤ tx.valueOut := by
  have hinputs : written (if isCoinbase then [] else
      tx.inputs.map fun input => (input.outpoint, none)) = 0 := by
    split
    · rfl
    · simp [written, worth, Function.comp_def]
  rw [Transaction.coinLog, written_append, hinputs, Nat.zero_add]
  refine le_trans (le_of_eq ?_) (sum_newCoins_le tx.getHash height isCoinbase 0 h)
  simp [written, Transaction.created, Function.comp_def]

def blockLog (height : UInt32) (coinbase : Transaction) (rest : List Transaction) :
    List (OutPoint × Option Coin) :=
  coinbase.coinLog height true ++ rest.flatMap fun tx => tx.coinLog height false

theorem View.coins_applyTxs_eq {height : UInt32} : ∀ (txs : List Transaction) (v : View),
    (v.applyTxs height txs).coins = replay (txs.flatMap fun tx => tx.coinLog height false) v.coins
  | [], _ => rfl
  | tx :: txs, v => by
    rw [List.flatMap_cons, replay_append]
    exact View.coins_applyTxs_eq txs (v.applyTx height false tx)

theorem View.coins_applyBlock_eq {b : Block} {coinbase : Transaction} {rest : List Transaction}
    (h : b.Shape coinbase rest) (height : UInt32) (v : View) :
    (v.applyBlock height b).coins = replay (blockLog height coinbase rest) v.coins := by
  rw [View.applyBlock, h.transactions, blockLog, replay_append]
  simp only [h.coinbase]
  exact View.coins_applyTxs_eq rest _

/-! ## 2. One block -/

section OneBlock

variable {coins : OutPoint → Option Coin} {height : UInt32} {coinbase : Transaction}
  {rest : List Transaction} {spents : List (List Coin)}

theorem Coin.total_nonneg {spent : List Coin} (h : ∀ c ∈ spent, MoneyRange c.value) :
    0 ≤ Coin.total spent :=
  List.sum_nonneg fun x hx => by
    obtain ⟨c, hc, rfl⟩ := List.mem_map.mp hx
    exact (h c hc).1

/-- The coins at the inputs of a transaction are worth what it spends. -/
theorem sum_inputs_eq : ∀ {inputs : List TxInput} {spent : List Coin},
    inputs.map (fun input => coins input.outpoint) = spent.map some →
      (∀ c ∈ spent, MoneyRange c.value) →
      ((((inputs.map TxInput.outpoint).map fun o => worth (coins o)).sum : Nat) : Int) =
        Coin.total spent
  | [], [], _, _ => rfl
  | input :: inputs, c :: spent, hfound, hrange => by
    simp only [List.map_cons, List.cons.injEq] at hfound
    have hrest := sum_inputs_eq hfound.2 fun c hc => hrange c (List.mem_cons_of_mem _ hc)
    have hworth : (worth (some c) : Int) = c.value.toInt :=
      Int.toNat_of_nonneg (hrange c (List.mem_cons_self ..)).1
    rw [List.map_cons, List.map_cons, List.sum_cons, Nat.cast_add, hrest, hfound.1, hworth]
    rfl

/-- The coins at the inputs of accepted transactions, against what they write and their fees. -/
theorem written_add_fees_le {txs : List Transaction} {spents : List (List Coin)}
    (h : List.Forall₂ (TxAccepted coins) txs spents) (height : UInt32) :
    (written (txs.flatMap fun tx => tx.coinLog height false) : Int) + feesOf txs spents ≤
        ((((spentBy txs).map fun o => worth (coins o)).sum : Nat) : Int) ∧
      0 ≤ feesOf txs spents := by
  induction h with
  | nil => simp [written, feesOf, spentBy]
  | @cons tx spent txs spents htx _ ih =>
    have hwritten := written_coinLog_le (fun out ho => (htx.outputs out ho).1) height false
    have hin := sum_inputs_eq htx.found htx.range
    have hpays := htx.pays
    have hspent : spentBy (tx :: txs) = tx.inputs.map TxInput.outpoint ++ spentBy txs := rfl
    rw [feesOf_cons, hspent, List.map_append, List.sum_append, List.flatMap_cons, written_append,
      Nat.cast_add, Nat.cast_add, hin]
    constructor <;> omega

/-- **An accepted block adds at most the subsidy.** -/
theorem BlockAccepted.capped (h : BlockAccepted coins height coinbase rest spents) {total : Nat}
    (hcap : Capped worth coins total) :
    Capped worth (replay (blockLog height coinbase rest) coins)
      (total + (getBlockSubsidy height.toUInt64).toNat) := by
  have hkeys : ∀ k ∈ (spentBy rest).toFinset, k ∈ keys (blockLog height coinbase rest) := by
    intro k hk
    obtain ⟨tx, htx, hk⟩ := List.mem_flatMap.mp (List.mem_toFinset.mp hk)
    rw [blockLog, keys_append]
    refine List.mem_append_right _ (List.mem_map.mpr ⟨(k, none), ?_, rfl⟩)
    obtain ⟨input, hi, rfl⟩ := List.mem_map.mp hk
    exact List.mem_flatMap.mpr ⟨tx, htx, List.mem_append_left _ (List.mem_map.mpr ⟨input, hi, rfl⟩)⟩
  refine hcap.replay worth (spentBy rest).toFinset hkeys ?_
  rw [List.sum_toFinset _ h.outpoints]
  obtain ⟨hle, hnonneg⟩ := written_add_fees_le h.txs height
  have hcoinbase := written_coinLog_le h.outputs height true
  have hreward := h.reward
  have hlog : written (blockLog height coinbase rest) =
      written (coinbase.coinLog height true) +
        written (rest.flatMap fun tx => tx.coinLog height false) := written_append _ _
  change total + written (blockLog height coinbase rest) ≤ _
  split at hreward <;> omega

end OneBlock

/-! ## 3. The subsidies of a chain -/

/-- `GetBlockSubsidy(h)` for `h = 0 .. n - 1`, added up. -/
def subsidiesBelow (n : Nat) : Nat := ∑ h ∈ Finset.range n, (getBlockSubsidy (UInt64.ofNat h)).toNat

theorem div_HALVING_INTERVAL {n : Nat} (hn : n < 2 ^ 64) :
    (UInt64.ofNat n / HALVING_INTERVAL).toNat = n / 194804 := by
  rw [UInt64.toNat_div, toNat_ofNat hn]
  rfl

theorem getBlockSubsidy_era {k x : Nat} (hk : k < 64) (hx : x < 194804) :
    (getBlockSubsidy (UInt64.ofNat (k * 194804 + x))).toNat = 7700000000 >>> k := by
  have hdiv := div_HALVING_INTERVAL (show k * 194804 + x < 2 ^ 64 by omega)
  rw [show (k * 194804 + x) / 194804 = k by omega] at hdiv
  have hsmall : ¬ UInt64.ofNat (k * 194804 + x) / HALVING_INTERVAL ≥ 64 := by
    rw [ge_iff_le, UInt64.le_iff_toNat_le, hdiv]
    exact Nat.not_le.mpr hk
  unfold getBlockSubsidy
  simp only [if_neg hsmall]
  rw [UInt64.toNat_shiftRight, hdiv, Nat.mod_eq_of_lt hk]
  rfl

theorem getBlockSubsidy_zero {h : Nat} (hle : 64 * 194804 ≤ h) (hlt : h < 2 ^ 64) :
    (getBlockSubsidy (UInt64.ofNat h)).toNat = 0 := by
  have hlarge : UInt64.ofNat h / HALVING_INTERVAL ≥ 64 := by
    rw [ge_iff_le, UInt64.le_iff_toNat_le, div_HALVING_INTERVAL hlt, show (64 : UInt64).toNat = 64 from rfl]
    omega
  unfold getBlockSubsidy
  simp only [if_pos hlarge]
  rfl

theorem subsidiesBelow_era : ∀ {k : Nat}, k ≤ 64 →
    subsidiesBelow (k * 194804) = ∑ j ∈ Finset.range k, 194804 * (7700000000 >>> j)
  | 0, _ => rfl
  | k + 1, hk => by
    have hera : ∀ x ∈ Finset.range 194804,
        (getBlockSubsidy (UInt64.ofNat (k * 194804 + x))).toNat = 7700000000 >>> k := fun x hx =>
      getBlockSubsidy_era (by omega) (Finset.mem_range.mp hx)
    have hprev := subsidiesBelow_era (show k ≤ 64 by omega)
    unfold subsidiesBelow at hprev ⊢
    rw [Nat.succ_mul, Finset.sum_range_add, hprev, Finset.sum_const_nat hera, Finset.card_range,
      Finset.sum_range_succ]

theorem subsidiesBelow_le_of_zero {e n : Nat}
    (h : ∀ x, e ≤ x → x < n → (getBlockSubsidy (UInt64.ofNat x)).toNat = 0) :
    subsidiesBelow n ≤ subsidiesBelow e := by
  rcases Nat.le_total n e with hle | hle
  · exact Finset.sum_le_sum_of_subset (Finset.range_mono hle)
  · obtain ⟨m, rfl⟩ := Nat.exists_eq_add_of_le hle
    have hzero : ∀ x ∈ Finset.range m, (getBlockSubsidy (UInt64.ofNat (e + x))).toNat = 0 :=
      fun x hx => h _ (Nat.le_add_right ..) (Nat.add_lt_add_left (Finset.mem_range.mp hx) e)
    unfold subsidiesBelow
    rw [Finset.sum_range_add, Finset.sum_eq_zero hzero, Nat.add_zero]

/-- **The subsidies of all heights add up to at most `MAX_MONEY`.** -/
theorem subsidiesBelow_le {n : Nat} (hn : n ≤ 2 ^ 64) :
    (subsidiesBelow n : Int) ≤ MAX_MONEY.toInt := by
  have heras := subsidiesBelow_era (Nat.le_refl 64)
  have hsum : ∑ j ∈ Finset.range 64, 194804 * (7700000000 >>> j) ≤ 3000000000000000 := by
    decide
  have hle : subsidiesBelow n ≤ subsidiesBelow (64 * 194804) :=
    subsidiesBelow_le_of_zero fun x hx hlt => getBlockSubsidy_zero hx (Nat.lt_of_lt_of_le hlt hn)
  rw [toInt_MAX_MONEY]
  omega

/-! ## 4. Valid chains -/

theorem Valid.length_le {p : List Block} (h : Valid p) : p.length ≤ 2 ^ 32 := by
  cases h with
  | genesis => simp
  | @cons b q p _ hb =>
    have hlt := b.header.height.toNat_lt
    rw [hb.height] at hlt
    exact hlt

theorem toUInt64_ofNat {n : Nat} (h : n < 2 ^ 32) : (UInt32.ofNat n).toUInt64 = UInt64.ofNat n := by
  refine UInt64.toNat_inj.mp ?_
  rw [UInt32.toNat_toUInt64, toNat_ofNat_of_lt h, toNat_ofNat (by omega)]

theorem subsidiesBelow_succ (n : Nat) :
    subsidiesBelow (n + 1) = subsidiesBelow n + (getBlockSubsidy (UInt64.ofNat n)).toNat :=
  Finset.sum_range_succ ..

theorem valueOut_genesis : ∀ tx ∈ buildGenesisBlock.transactions,
    (∀ out ∈ tx.outputs, 0 ≤ out.value.toInt) ∧
      tx.valueOut ≤ (getBlockSubsidy (UInt64.ofNat 0)).toNat := by
  decide

theorem capped_genesis : Capped worth (viewOf [buildGenesisBlock]).coins (subsidiesBelow 1) := by
  obtain ⟨coinbase, hshape⟩ := shape_genesis
  obtain ⟨hnonneg, hvalue⟩ := valueOut_genesis coinbase (by rw [hshape.transactions]; simp)
  have hwritten := written_coinLog_le hnonneg (UInt32.ofNat 0) true
  have hempty : Capped worth View.empty.coins 0 := fun S => by simp [View.empty, worth]
  rw [viewOf, View.coins_applyBlock_eq hshape, subsidiesBelow_succ]
  refine hempty.replay worth ∅ (by simp) ?_
  change 0 + written (blockLog (UInt32.ofNat 0) coinbase []) ≤ _
  rw [blockLog, List.flatMap_nil, List.append_nil, Finset.sum_empty]
  omega

/-- **The coins of a valid chain are worth at most the subsidies of its heights.** -/
theorem Valid.capped {p : List Block} (h : Valid p) :
    Capped worth (viewOf p).coins (subsidiesBelow p.length) := by
  induction h with
  | genesis => exact capped_genesis
  | @cons b q p hp hb ih =>
    obtain ⟨coinbase, rest, spents, hshape, hacc⟩ := hb.accepted
    have hcap := hacc.capped ih
    have hlt := b.header.height.toNat_lt
    rw [hb.height] at hlt
    rw [viewOf, View.coins_applyBlock_eq hshape]
    rw [toUInt64_ofNat hlt, ← subsidiesBelow_succ] at hcap
    exact hcap

end Moneu
