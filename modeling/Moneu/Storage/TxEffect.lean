/-
# What a transaction does to the UTXO set

The journals of a transaction over the two maps of `Moneu.Storage.UTXOView`: applying it erases
the outpoints its inputs name, writes the coins it creates and marks the leaves it reveals; undoing
it erases EVERY outpoint it has, spendable or not, and then writes back the coins it spent.
`ApplyTransaction`, `UndoTransaction` and `ApplyTransactionForReplay` are shown to do exactly
that.
-/
import Moneu.Storage.UTXOView

namespace Moneu

open Journal

/-! ## 1. Journals -/

/-- The leaves an input reveals. -/
def TxInput.leaves (input : TxInput) : List NoiseLeafKey :=
  UTXOSet.leafKeys input.kps (NoiseProof.readAll input.noiseProof).1

namespace Transaction

def leaves (tx : Transaction) : List NoiseLeafKey := tx.inputs.flatMap TxInput.leaves

/-- The coins a transaction creates. -/
def created (tx : Transaction) (height : UInt32) (isCoinbase : Bool) : List (OutPoint × Coin) :=
  UTXOSet.newCoins tx.getHash height isCoinbase 0 tx.outputs

/-- The journal of the coins: spent outpoints first, then created coins. -/
def coinLog (tx : Transaction) (height : UInt32) (isCoinbase : Bool) :
    List (OutPoint × Option Coin) :=
  (if isCoinbase then [] else tx.inputs.map fun input => (input.outpoint, none)) ++
    (tx.created height isCoinbase).map fun item => (item.1, some item.2)

def leafLog (tx : Transaction) (isCoinbase : Bool) : List (NoiseLeafKey × Bool) :=
  if isCoinbase then [] else tx.leaves.map fun key => (key, true)

/-- The undo journal of the coins. -/
def coinUndo (tx : Transaction) (spent : List Coin) : List (OutPoint × Option Coin) :=
  ((UTXOSet.outpointsOf tx).map fun o => (o, none)) ++
    (tx.inputs.zip spent).map fun item => (item.1.outpoint, some item.2.restored)

def leafUndo (tx : Transaction) : List (NoiseLeafKey × Bool) := tx.leaves.map fun key => (key, false)

end Transaction

namespace UTXOSet

variable {o : OutPoint}

/-- The coin `c` at `o` is paid by one of `outputs`, which are numbered from `i` on: the output is
spendable, worth something and a standard payment. -/
def PaidBy (txHash : Bytes32) (height : UInt32) (isCoinbase : Bool) (i : Nat)
    (outputs : List TxOutput) (o : OutPoint) (c : Coin) : Prop :=
  ∃ j output pubkeyHash, outputs[j]? = some output ∧ output.isUnspendable = false ∧
    0 < output.value ∧ Script.extractPubkeyHash output.scriptPubKey = some pubkeyHash ∧
    o = { txHash, index := UInt32.ofNat (i + j) } ∧
    c = Coin.unspent output.value pubkeyHash height isCoinbase

theorem PaidBy.cons {txHash : Bytes32} {height : UInt32} {isCoinbase : Bool} {i : Nat}
    {outputs : List TxOutput} {c : Coin} (output : TxOutput)
    (h : PaidBy txHash height isCoinbase (i + 1) outputs o c) :
    PaidBy txHash height isCoinbase i (output :: outputs) o c := by
  obtain ⟨j, out, pkh, hj, hu, hv, he, ho, hc⟩ := h
  refine ⟨j + 1, out, pkh, by simpa using hj, hu, hv, he, ?_, hc⟩
  rw [ho, Nat.add_assoc, Nat.add_comm 1]

theorem mem_newCoins {txHash : Bytes32} {height : UInt32} {isCoinbase : Bool} {c : Coin} :
    ∀ {i : Nat} {outputs : List TxOutput},
    (o, c) ∈ newCoins txHash height isCoinbase i outputs →
      PaidBy txHash height isCoinbase i outputs o c
  | i, [], h => by simp [newCoins] at h
  | i, output :: rest, h => by
    unfold newCoins at h
    split at h
    · exact (mem_newCoins h).cons output
    · rename_i hu
      split at h
      · exact (mem_newCoins h).cons output
      · rename_i hv
        split at h
        · exact (mem_newCoins h).cons output
        · rename_i pkh he
          rcases List.mem_cons.mp h with heq | h
          · cases heq
            exact ⟨0, output, pkh, rfl, by simpa using hu, Int64.not_le.mp hv, he, rfl, rfl⟩
          · exact (mem_newCoins h).cons output

theorem newCoins_subset_cons {txHash : Bytes32} {height : UInt32} {isCoinbase : Bool} {i : Nat}
    (output : TxOutput) (outputs : List TxOutput) :
    newCoins txHash height isCoinbase (i + 1) outputs ⊆
      newCoins txHash height isCoinbase i (output :: outputs) := by
  intro item hitem
  unfold newCoins
  split
  · exact hitem
  · split
    · exact hitem
    · split
      · exact hitem
      · exact List.mem_cons_of_mem _ hitem

/-- **A payment that is worth something creates its coin.** -/
theorem mem_newCoins_of_payment {txHash : Bytes32} {height : UInt32} {isCoinbase : Bool} {i j : Nat}
    {output : TxOutput} {outputs : List TxOutput} {pubkeyHash : Bytes32} (hj : outputs[j]? = some output)
    (hvalue : 0 < output.value)
    (hscript : output.scriptPubKey = Script.createPayToPubkeyHash pubkeyHash) :
    ((⟨txHash, UInt32.ofNat (i + j)⟩ : OutPoint),
      Coin.unspent output.value pubkeyHash height isCoinbase) ∈
        newCoins txHash height isCoinbase i outputs := by
  have hspendable : output.isUnspendable = false := by
    rw [TxOutput.isUnspendable, hscript, Script.isUnspendable_createPayToPubkeyHash]
  induction outputs generalizing i j with
  | nil => cases hj
  | cons out outputs ih =>
    cases j with
    | zero =>
      obtain rfl := Option.some.inj hj
      simp [newCoins, hspendable, Int64.not_le.mpr hvalue, hscript,
        Script.extractPubkeyHash_createPayToPubkeyHash]
    | succ j =>
      have hmem := ih (i := i + 1) hj
      rw [Nat.add_right_comm, Nat.add_assoc] at hmem
      exact newCoins_subset_cons out outputs hmem

theorem mem_outpointsOf {tx : Transaction} :
    o ∈ outpointsOf tx ↔
      ∃ i < tx.outputs.length, o = { txHash := tx.getHash, index := UInt32.ofNat i } := by
  simp only [outpointsOf, List.mem_map, List.mem_range]
  exact ⟨fun ⟨i, hi, h⟩ => ⟨i, hi, h.symm⟩, fun ⟨i, hi, h⟩ => ⟨i, hi, h.symm⟩⟩

theorem txHash_of_mem_outpointsOf {tx : Transaction} (h : o ∈ outpointsOf tx) :
    o.txHash = tx.getHash := by
  obtain ⟨i, -, rfl⟩ := mem_outpointsOf.mp h
  rfl

end UTXOSet

namespace Transaction

open UTXOSet

variable {tx : Transaction} {height : UInt32} {isCoinbase : Bool} {o : OutPoint}

theorem mem_outpointsOf_of_created {c : Coin} (h : (o, c) ∈ tx.created height isCoinbase) :
    o ∈ outpointsOf tx := by
  obtain ⟨j, output, -, hj, -, -, -, rfl, -⟩ := mem_newCoins h
  refine mem_outpointsOf.mpr ⟨j, ?_, by simp⟩
  exact (List.getElem?_eq_some_iff.mp hj).1

/-- Created coins carry the height and the kind of their transaction, and are unspent. -/
theorem created_fields {c : Coin} (h : (o, c) ∈ tx.created height isCoinbase) :
    c.height = height ∧ c.isCoinbase = isCoinbase ∧ c.isSpent = false := by
  obtain ⟨-, -, -, -, -, -, -, -, rfl⟩ := mem_newCoins h
  exact ⟨rfl, rfl, rfl⟩

theorem mem_keys_coinLog (h : o ∈ keys (tx.coinLog height isCoinbase)) :
    (isCoinbase = false ∧ o ∈ tx.inputs.map TxInput.outpoint) ∨
      ∃ c, (o, c) ∈ tx.created height isCoinbase := by
  simp only [coinLog, keys_append, keys_map, List.mem_append, List.mem_map, Prod.exists,
    exists_and_right, exists_eq_right] at h
  rcases h with h | h
  · cases isCoinbase with
    | true => simp [keys] at h
    | false =>
      left
      simpa using h
  · exact .inr h

theorem keys_coinUndo {spent : List Coin} (hlen : spent.length = tx.inputs.length) :
    keys (tx.coinUndo spent) = outpointsOf tx ++ tx.inputs.map TxInput.outpoint := by
  have hzip : (tx.inputs.zip spent).map (fun item => item.1.outpoint) =
      ((tx.inputs.zip spent).map Prod.fst).map TxInput.outpoint := by
    simp
  simp only [coinUndo, keys_append, keys_map, List.map_id', hzip]
  rw [List.map_fst_zip hlen.ge]

theorem mem_keys_coinUndo {spent : List Coin} (hlen : spent.length = tx.inputs.length)
    (h : o ∈ keys (tx.coinLog height isCoinbase)) : o ∈ keys (tx.coinUndo spent) := by
  rw [keys_coinUndo hlen, List.mem_append]
  rcases mem_keys_coinLog h with ⟨-, h⟩ | ⟨c, h⟩
  · exact .inr h
  · exact .inl (mem_outpointsOf_of_created h)

end Transaction

/-! ## 2. Loops of single writes -/

namespace UTXOSet

variable {T : Set OutPoint} {L : Set NoiseLeafKey}

variable {u : UTXOSet}

theorem getCoin_addCoins (u : UTXOSet) (coins : List (OutPoint × Coin)) :
    (u.addCoins coins).getCoin = replay (coins.map fun item => (item.1, item.2.live)) u.getCoin :=
  replay_foldl getCoin _ _ (fun u item => getCoin_setEntry u item.1 _) coins u

theorem isNoiseLeafSpent_addCoins (coins : List (OutPoint × Coin)) (u : UTXOSet) :
    (u.addCoins coins).isNoiseLeafSpent = u.isNoiseLeafSpent := by
  induction coins generalizing u with
  | nil => rfl
  | cons item coins ih => exact ih (u.addCoinOverwrite item.1 item.2)

theorem Rep.addCoins (h : Rep u) (coins : List (OutPoint × Coin)) :
    Rep (u.addCoins coins) :=
  List.foldlRecOn coins _ h fun _ hu _ _ => hu.setEntry _ rfl

theorem Within.addCoins {coins : List (OutPoint × Coin)} (h : ∀ item ∈ coins, item.1 ∈ T)
    (u : UTXOSet) : Within T L u (u.addCoins coins) :=
  Within.foldl coins u fun item hitem u => Within.setEntry (h item hitem) u _

theorem getCoin_markAll (keys : List NoiseLeafKey) (u : UTXOSet) :
    (u.markAll keys).getCoin = u.getCoin := by
  induction keys generalizing u with
  | nil => rfl
  | cons key keys ih => exact ih (u.markNoiseLeafSpent key)

theorem isNoiseLeafSpent_markAll (u : UTXOSet) (keys : List NoiseLeafKey) :
    (u.markAll keys).isNoiseLeafSpent =
      replay (keys.map fun key => (key, true)) u.isNoiseLeafSpent :=
  replay_foldl isNoiseLeafSpent _ _ (fun u key => isNoiseLeafSpent_markNoiseLeafSpent u key) keys u

theorem Rep.markAll (h : Rep u) (keys : List NoiseLeafKey) : Rep (u.markAll keys) :=
  List.foldlRecOn keys _ h fun _ hu key _ => hu.markNoiseLeafSpent key

theorem Within.markAll {keys : List NoiseLeafKey} (h : ∀ key ∈ keys, key ∈ L) (u : UTXOSet) :
    Within T L u (u.markAll keys) :=
  Within.foldl keys u fun key hkey u => Within.markNoiseLeafSpent (h key hkey) u

theorem getCoin_unmarkAll (keys : List NoiseLeafKey) (u : UTXOSet) :
    (u.unmarkAll keys).getCoin = u.getCoin := by
  induction keys generalizing u with
  | nil => rfl
  | cons key keys ih => exact ih (u.unmarkNoiseLeafSpent key)

theorem isNoiseLeafSpent_unmarkAll (u : UTXOSet) (keys : List NoiseLeafKey) :
    (u.unmarkAll keys).isNoiseLeafSpent =
      replay (keys.map fun key => (key, false)) u.isNoiseLeafSpent :=
  replay_foldl isNoiseLeafSpent _ _ (fun u key => isNoiseLeafSpent_unmarkNoiseLeafSpent u key) keys u

theorem Rep.unmarkAll (h : Rep u) (keys : List NoiseLeafKey) :
    Rep (u.unmarkAll keys) :=
  List.foldlRecOn keys _ h fun _ hu key _ => hu.unmarkNoiseLeafSpent key

theorem Within.unmarkAll {keys : List NoiseLeafKey} (h : ∀ key ∈ keys, key ∈ L) (u : UTXOSet) :
    Within T L u (u.unmarkAll keys) :=
  Within.foldl keys u fun key hkey u => Within.unmarkNoiseLeafSpent (h key hkey) u

@[simp]
theorem getCoin_spendCollected (u : UTXOSet) (item : OutPoint × Coin) :
    (u.spendCollected item).getCoin = Function.update u.getCoin item.1 none := by
  unfold spendCollected
  split <;> simp

theorem Rep.spendCollected (h : Rep u) (item : OutPoint × Coin) :
    Rep (u.spendCollected item) := by
  unfold UTXOSet.spendCollected
  split <;> exact h.setEntry _ rfl

theorem Within.spendCollected {item : OutPoint × Coin} (h : item.1 ∈ T) (u : UTXOSet) :
    Within T L u (u.spendCollected item) := by
  unfold UTXOSet.spendCollected
  split <;> exact Within.setEntry h u _

theorem isNoiseLeafSpent_spendCollected (items : List (OutPoint × Coin)) (u : UTXOSet) :
    (items.foldl spendCollected u).isNoiseLeafSpent = u.isNoiseLeafSpent := by
  induction items generalizing u with
  | nil => rfl
  | cons item items ih =>
    rw [List.foldl_cons, ih]
    unfold spendCollected
    split <;> rfl

/-! ## 3. `ApplyTransaction` -/

theorem findInput_eq_ok {o : OutPoint} {c : Coin} :
    u.findInput o = .ok c ↔ u.getCoin o = some c := by
  unfold findInput getCoin
  cases u.cache.lookup o with
  | some entry => cases hs : entry.coin.isSpent <;> simp [hs]
  | none =>
    cases u.db.coins.lookup o with
    | none => simp
    | some dbCoin => cases hs : dbCoin.isSpent <;> simp [hs]

/-- The proofs of an input pass when their leaves are unspent and all different, also from those
claimed before. -/
theorem collectLeaves_eq_ok {kps : Bytes32} :
    ∀ {proofs : List NoiseProof} {toMark toMark' : List NoiseLeafKey},
      u.collectLeaves kps proofs toMark = .ok toMark' ↔
        toMark' = toMark ++ leafKeys kps proofs ∧
          (∀ key ∈ leafKeys kps proofs, u.isNoiseLeafSpent key = false ∧ key ∉ toMark) ∧
          (leafKeys kps proofs).Nodup
  | [], toMark, toMark' => by
    refine ⟨fun h => ?_, fun ⟨h, _, _⟩ => ?_⟩
    · cases h
      simp [leafKeys]
    · rw [h]
      simp [collectLeaves, leafKeys]
  | proof :: proofs, toMark, toMark' => by
    have hkeys : leafKeys kps (proof :: proofs) =
        { kps, leafIndex := proof.leafIndex } :: leafKeys kps proofs := rfl
    rw [hkeys]
    generalize hkey : ({ kps, leafIndex := proof.leafIndex } : NoiseLeafKey) = key
    unfold collectLeaves
    simp only [hkey]
    by_cases hspent : u.isNoiseLeafSpent key = true
    · simp [hspent]
    · by_cases hmem : key ∈ toMark
      · simp [hspent, hmem]
      · rw [if_neg hspent, if_neg hmem, collectLeaves_eq_ok]
        rw [Bool.not_eq_true] at hspent
        constructor
        · rintro ⟨rfl, hfresh, hnodup⟩
          refine ⟨by simp, ?_, ?_⟩
          · intro k hk
            rcases List.mem_cons.mp hk with rfl | hk
            · exact ⟨hspent, hmem⟩
            · exact ⟨(hfresh k hk).1, fun h => (hfresh k hk).2 (by simp [h])⟩
          · refine List.nodup_cons.mpr ⟨fun h => (hfresh key h).2 (by simp), hnodup⟩
        · rintro ⟨rfl, hfresh, hnodup⟩
          obtain ⟨hnotMem, hnodup⟩ := List.nodup_cons.mp hnodup
          refine ⟨by simp, fun k hk => ?_, hnodup⟩
          have hk' := hfresh k (List.mem_cons_of_mem _ hk)
          refine ⟨hk'.1, fun h => ?_⟩
          rcases List.mem_append.mp h with h | h
          · exact hk'.2 h
          · rw [List.mem_singleton.mp h] at hk
            exact hnotMem hk

end UTXOSet

/-- **What `ApplyTransaction` asks of the inputs**, in terms of the two maps: every coin is there
(`spent` lists them), every proof blob is present and parses, and the leaves are unspent and all
different. -/
structure Spendable (coins : OutPoint → Option Coin) (spentLeaf : NoiseLeafKey → Bool)
    (inputs : List TxInput) (spent : List Coin) : Prop where
  found : inputs.map (fun input => coins input.outpoint) = spent.map some
  proved : ∀ input ∈ inputs, input.noiseProof ≠ [] ∧ (NoiseProof.readAll input.noiseProof).2 = none
  fresh : ∀ key ∈ inputs.flatMap TxInput.leaves, spentLeaf key = false
  nodup : (inputs.flatMap TxInput.leaves).Nodup

namespace Spendable

variable {coins coins' : OutPoint → Option Coin} {spentLeaf : NoiseLeafKey → Bool}
  {inputs : List TxInput} {spent : List Coin}

theorem length_eq (h : Spendable coins spentLeaf inputs spent) : spent.length = inputs.length := by
  have := congrArg List.length h.found
  simpa using this.symm

theorem mono (h : Spendable coins spentLeaf inputs spent)
    (hcoins : ∀ o, Below (coins o) (coins' o)) : Spendable coins' spentLeaf inputs spent where
  found := by
    have hfound := h.found
    have hlen := h.length_eq
    clear h
    induction inputs generalizing spent with
    | nil => simpa using hfound
    | cons input inputs ih =>
      cases spent with
      | nil => simp at hlen
      | cons c spent =>
        simp only [List.map_cons, List.cons.injEq] at hfound ⊢
        exact ⟨hcoins _ c hfound.1, ih hfound.2 (by simpa using hlen)⟩
  proved := h.proved
  fresh := h.fresh
  nodup := h.nodup

theorem spent_unique {spent' : List Coin} (h : Spendable coins spentLeaf inputs spent)
    (h' : Spendable coins spentLeaf inputs spent') : spent = spent' :=
  List.map_injective_iff.mpr (Option.some_injective Coin) (h.found.symm.trans h'.found)

end Spendable

namespace UTXOSet

variable {u : UTXOSet} {tx : Transaction} {height : UInt32} {T : Set OutPoint} {L : Set NoiseLeafKey}

/-- The input loop succeeds exactly when the inputs are spendable and claim no leaf of
`toMark`. -/
theorem collectInputs_eq_ok :
    ∀ {inputs : List TxInput} {toMark : List NoiseLeafKey}
      {r : List (OutPoint × Coin) × List NoiseLeafKey},
      u.collectInputs inputs toMark = .ok r ↔
        ∃ spent, Spendable u.getCoin u.isNoiseLeafSpent inputs spent ∧
          (∀ key ∈ inputs.flatMap TxInput.leaves, key ∉ toMark) ∧
          r = ((inputs.map TxInput.outpoint).zip spent, toMark ++ inputs.flatMap TxInput.leaves)
  | [], toMark, r => by
    constructor
    · intro h
      cases h
      exact ⟨[], ⟨rfl, by simp, by simp, by simp⟩, by simp, by simp⟩
    · rintro ⟨spent, -, -, rfl⟩
      simp [collectInputs]
  | input :: inputs, toMark, r => by
    have hleaves : (input :: inputs).flatMap TxInput.leaves =
        leafKeys input.kps (NoiseProof.readAll input.noiseProof).1 ++
          inputs.flatMap TxInput.leaves := rfl
    unfold collectInputs
    constructor
    · intro h
      split at h
      · cases h
      · rename_i coin hfind
        split at h
        · cases h
        · rename_i hempty
          split at h
          · cases h
          · rename_i toMark' hcollect
            split at h
            · cases h
            · rename_i hparse
              split at h
              · cases h
              · rename_i toSpend toMark'' hrest
                cases h
                obtain ⟨rfl, hfresh, hnodup⟩ := collectLeaves_eq_ok.mp hcollect
                obtain ⟨spent, hsp, hdisj, heq⟩ := collectInputs_eq_ok.mp hrest
                cases heq
                refine ⟨coin :: spent, ⟨?_, ?_, ?_, ?_⟩, ?_, ?_⟩
                · simp [findInput_eq_ok.mp hfind, hsp.found]
                · rintro i hi
                  rcases List.mem_cons.mp hi with rfl | hi
                  · exact ⟨by simpa using hempty, by simpa using hparse⟩
                  · exact hsp.proved i hi
                · rw [hleaves]
                  intro key hkey
                  rcases List.mem_append.mp hkey with hkey | hkey
                  · exact (hfresh key hkey).1
                  · exact hsp.fresh key hkey
                · rw [hleaves]
                  refine List.nodup_append'.mpr ⟨hnodup, hsp.nodup, fun key hkey hkey' => ?_⟩
                  exact hdisj key hkey' (List.mem_append_right _ hkey)
                · rw [hleaves]
                  intro key hkey
                  rcases List.mem_append.mp hkey with hkey | hkey
                  · exact (hfresh key hkey).2
                  · exact fun h => hdisj key hkey (List.mem_append_left _ h)
                · simp [hleaves]
    · rintro ⟨spent, hsp, hdisj, rfl⟩
      obtain ⟨hfound, hproved, hfresh, hnodup⟩ := hsp
      rw [hleaves] at hfresh hnodup hdisj
      obtain ⟨hnodup, hnodup', hcross⟩ := List.nodup_append'.mp hnodup
      cases spent with
      | nil => simp at hfound
      | cons coin spent =>
        simp only [List.map_cons, List.cons.injEq] at hfound
        obtain ⟨hnonempty, hparse⟩ := hproved input (List.mem_cons_self ..)
        have hhead : u.collectLeaves input.kps (NoiseProof.readAll input.noiseProof).1 toMark =
            .ok (toMark ++ leafKeys input.kps (NoiseProof.readAll input.noiseProof).1) :=
          collectLeaves_eq_ok.mpr ⟨rfl, fun key hkey =>
            ⟨hfresh key (List.mem_append_left _ hkey),
              hdisj key (List.mem_append_left _ hkey)⟩, hnodup⟩
        have htail : u.collectInputs inputs
            (toMark ++ leafKeys input.kps (NoiseProof.readAll input.noiseProof).1) = .ok _ :=
          collectInputs_eq_ok.mpr ⟨spent, ⟨hfound.2, fun i hi => hproved i (List.mem_cons_of_mem _ hi),
            fun key hkey => hfresh key (List.mem_append_right _ hkey), hnodup'⟩,
            fun key hkey hmem => by
              rcases List.mem_append.mp hmem with h | h
              · exact hdisj key (List.mem_append_right _ hkey) h
              · exact hcross h hkey, rfl⟩
        rw [findInput_eq_ok.mpr hfound.1]
        simp [hnonempty, hparse, hhead, htail, hleaves]

/-- The set after a transaction that spends the coins `spent`. -/
def applied (u : UTXOSet) (tx : Transaction) (height : UInt32) (spent : List Coin) : UTXOSet :=
  ((((tx.inputs.map TxInput.outpoint).zip spent).foldl spendCollected u).markAll
    tx.leaves).addCoins (tx.created height false)

/-- **`ApplyTransaction` succeeds exactly on spendable inputs.** -/
theorem applyTransaction_eq_ok {r : UTXOSet × List Coin} :
    u.applyTransaction tx height false = .ok r ↔
      ∃ spent, Spendable u.getCoin u.isNoiseLeafSpent tx.inputs spent ∧
        r = (u.applied tx height spent, spent) := by
  have hsnd : ∀ spent : List Coin, spent.length = tx.inputs.length →
      ((tx.inputs.map TxInput.outpoint).zip spent).map Prod.snd = spent := fun spent hlen =>
    List.map_snd_zip (by simp [hlen])
  unfold applyTransaction
  constructor
  · intro h
    simp only [Bool.false_eq_true, if_false] at h
    split at h
    · cases h
    · rename_i toSpend toMark hcollect
      cases h
      obtain ⟨spent, hsp, -, heq⟩ := collectInputs_eq_ok.mp hcollect
      cases heq
      refine ⟨spent, hsp, ?_⟩
      rw [hsnd spent hsp.length_eq]
      rfl
  · rintro ⟨spent, hsp, rfl⟩
    have hcollect : u.collectInputs tx.inputs [] =
        .ok ((tx.inputs.map TxInput.outpoint).zip spent, [] ++ tx.leaves) :=
      collectInputs_eq_ok.mpr ⟨spent, hsp, by simp, rfl⟩
    simp only [Bool.false_eq_true, if_false, hcollect, hsnd spent hsp.length_eq]
    rfl

theorem live_created {isCoinbase : Bool} :
    (tx.created height isCoinbase).map (fun item => (item.1, item.2.live)) =
      (tx.created height isCoinbase).map fun item => (item.1, some item.2) := by
  refine List.map_congr_left fun item hitem => ?_
  have hspent := (Transaction.created_fields hitem).2.2
  rw [Coin.live, hspent]
  rfl

theorem getCoin_applied (u : UTXOSet) (tx : Transaction) (height : UInt32) {spent : List Coin}
    (hlen : spent.length = tx.inputs.length) :
    (u.applied tx height spent).getCoin = replay (tx.coinLog height false) u.getCoin := by
  have hspend := replay_foldl getCoin spendCollected (fun item => (item.1, none))
    getCoin_spendCollected ((tx.inputs.map TxInput.outpoint).zip spent) u
  have hkeys : (((tx.inputs.map TxInput.outpoint).zip spent).map fun item =>
      (item.1, (none : Option Coin))) = tx.inputs.map fun input => (input.outpoint, none) := by
    have hfst : ((tx.inputs.map TxInput.outpoint).zip spent).map Prod.fst =
        tx.inputs.map TxInput.outpoint := List.map_fst_zip (by simp [hlen])
    calc ((tx.inputs.map TxInput.outpoint).zip spent).map (fun item => (item.1, none))
        = (((tx.inputs.map TxInput.outpoint).zip spent).map Prod.fst).map fun o => (o, none) := by
          simp
      _ = tx.inputs.map fun input => (input.outpoint, none) := by
          rw [hfst]
          simp
  rw [applied, getCoin_addCoins, getCoin_markAll, hspend, hkeys, live_created]
  simp [Transaction.coinLog]

theorem isNoiseLeafSpent_applied (u : UTXOSet) (tx : Transaction) (height : UInt32)
    (spent : List Coin) : (u.applied tx height spent).isNoiseLeafSpent =
      replay (tx.leafLog false) u.isNoiseLeafSpent := by
  rw [applied, isNoiseLeafSpent_addCoins, isNoiseLeafSpent_markAll, isNoiseLeafSpent_spendCollected]
  rfl

theorem Rep.applied (h : Rep u) (tx : Transaction) (height : UInt32) (spent : List Coin) :
    Rep (u.applied tx height spent) :=
  ((List.foldlRecOn _ _ h fun _ hu item _ => hu.spendCollected item).markAll _).addCoins _

theorem Within.applied (hT : ∀ o ∈ keys (tx.coinLog height false), o ∈ T)
    (hL : ∀ key ∈ tx.leaves, key ∈ L) (u : UTXOSet) (spent : List Coin) :
    Within T L u (u.applied tx height spent) := by
  have hinputs : ∀ item ∈ (tx.inputs.map TxInput.outpoint).zip spent, item.1 ∈ T := by
    intro item hitem
    refine hT item.1 ?_
    have := (List.of_mem_zip hitem).1
    simp only [Transaction.coinLog, keys_append, List.mem_append]
    left
    simpa using this
  have hcreated : ∀ item ∈ tx.created height false, item.1 ∈ T := by
    intro item hitem
    refine hT item.1 ?_
    simp only [Transaction.coinLog, keys_append, List.mem_append, keys_map]
    exact .inr (List.mem_map_of_mem hitem)
  exact ((Within.foldl _ u fun item hitem u => Within.spendCollected (hinputs item hitem) u).trans
    (Within.markAll hL _)).trans (Within.addCoins hcreated _)

theorem applyTransaction_coinbase (u : UTXOSet) (tx : Transaction) (height : UInt32) :
    u.applyTransaction tx height true = .ok (u.addCoins (tx.created height true), []) := rfl

theorem getCoin_coinbase (u : UTXOSet) (tx : Transaction) (height : UInt32) :
    (u.addCoins (tx.created height true)).getCoin =
      replay (tx.coinLog height true) u.getCoin := by
  rw [getCoin_addCoins, live_created]
  rfl

/-! ## 4. `UndoTransaction` -/

theorem getCoin_eraseAll (os : List OutPoint) (u : UTXOSet) :
    (os.foldl eraseCoin u).getCoin = replay (os.map fun o => (o, none)) u.getCoin :=
  replay_foldl getCoin eraseCoin _ getCoin_eraseCoin os u

theorem isNoiseLeafSpent_eraseAll (os : List OutPoint) (u : UTXOSet) :
    (os.foldl eraseCoin u).isNoiseLeafSpent = u.isNoiseLeafSpent := by
  induction os generalizing u with
  | nil => rfl
  | cons o os ih => rw [List.foldl_cons, ih, isNoiseLeafSpent_eraseCoin]

theorem restoreInputs_spec : ∀ (inputs : List TxInput) (spent : List Coin) (u : UTXOSet),
      (∀ input ∈ inputs, (NoiseProof.readAll input.noiseProof).2 = none) →
      spent.length = inputs.length →
      ∃ u', u.restoreInputs inputs spent = (u', true) ∧
        u'.getCoin = replay ((inputs.zip spent).map fun item =>
          (item.1.outpoint, some item.2.restored)) u.getCoin ∧
        u'.isNoiseLeafSpent = replay ((inputs.flatMap TxInput.leaves).map fun key => (key, false))
          u.isNoiseLeafSpent ∧
        (Rep u → Rep u') ∧
        ((∀ input ∈ inputs, input.outpoint ∈ T) →
          (∀ key ∈ inputs.flatMap TxInput.leaves, key ∈ L) → Within T L u u')
  | [], [], u, _, _ => ⟨u, rfl, rfl, rfl, id, fun _ _ => Within.refl T L u⟩
  | input :: inputs, c :: spent, u, hparse, hlen => by
    let v := (u.setEntry input.outpoint
      { coin := c.restored, isDirty := true, isNew := false }).unmarkAll input.leaves
    obtain ⟨u', hrun, hcoins, hleaves, hrep, hwithin⟩ := restoreInputs_spec
      inputs spent v (fun i hi => hparse i (List.mem_cons_of_mem _ hi)) (by simpa using hlen)
    have hv : v.getCoin = Function.update u.getCoin input.outpoint (some c.restored) := by
      simp [v, getCoin_unmarkAll]
    have hvl : v.isNoiseLeafSpent =
        replay (input.leaves.map fun key => (key, false)) u.isNoiseLeafSpent := by
      simp [v, isNoiseLeafSpent_unmarkAll]
    refine ⟨u', ?_, ?_, ?_, fun h => hrep ((h.setEntry _ rfl).unmarkAll _), fun hT hL => ?_⟩
    · have hp := hparse input (List.mem_cons_self ..)
      unfold restoreInputs
      simp only [hp, Option.isSome_none, Bool.false_eq_true, if_false]
      exact hrun
    · simp [hcoins, hv]
    · simp [hleaves, hvl]
    · refine Within.trans ?_ (hwithin (fun i hi => hT i (List.mem_cons_of_mem _ hi))
        fun key hkey => hL key (by simp [List.mem_flatMap] at hkey ⊢; exact .inr hkey))
      refine (Within.setEntry (hT input (List.mem_cons_self ..)) u _).trans
        (Within.unmarkAll (fun key hkey => hL key ?_) _)
      simp only [List.flatMap_cons, List.mem_append]
      exact .inl hkey

/-- **`UndoTransaction` of a transaction that was applied** replays its undo journals. -/
theorem undoTransaction_spec (u : UTXOSet) {spent : List Coin} (hcb : tx.isCoinbase = false)
    (hparse : ∀ input ∈ tx.inputs, (NoiseProof.readAll input.noiseProof).2 = none)
    (hlen : spent.length = tx.inputs.length) :
    ∃ u', u.undoTransaction tx spent = (u', true) ∧
      u'.getCoin = replay (tx.coinUndo spent) u.getCoin ∧
      u'.isNoiseLeafSpent = replay tx.leafUndo u.isNoiseLeafSpent ∧
      (Rep u → Rep u') ∧
      ((∀ o ∈ keys (tx.coinUndo spent), o ∈ T) → (∀ key ∈ tx.leaves, key ∈ L) →
        Within T L u u') := by
  obtain ⟨u', hrun, hcoins, hleaves, hrep, hwithin⟩ := restoreInputs_spec (T := T) (L := L)
    tx.inputs spent ((outpointsOf tx).foldl eraseCoin u) hparse hlen
  refine ⟨u', ?_, ?_, ?_, fun h => hrep (List.foldlRecOn _ _ h fun _ hu o _ => hu.eraseCoin o),
    fun hT hL => ?_⟩
  · unfold undoTransaction
    simp [hcb, hlen, hrun]
  · rw [hcoins, getCoin_eraseAll, Transaction.coinUndo, replay_append]
  · rw [hleaves, isNoiseLeafSpent_eraseAll]
    rfl
  · rw [Transaction.keys_coinUndo hlen] at hT
    refine (Within.foldl _ u fun o ho u => Within.eraseCoin (hT o ?_) u).trans
      (hwithin (fun i hi => hT _ ?_) hL)
    · exact List.mem_append_left _ ho
    · exact List.mem_append_right _ (List.mem_map_of_mem hi)

theorem undoTransaction_coinbase (hcb : tx.isCoinbase = true) (u : UTXOSet) :
    u.undoTransaction tx [] = ((outpointsOf tx).foldl eraseCoin u, true) := by
  unfold undoTransaction
  simp [hcb]

/-! ## 5. `ApplyTransactionForReplay` -/

theorem markSeen_eq : ∀ (u : UTXOSet) (keys seen : List NoiseLeafKey), (∀ key ∈ keys, key ∉ seen) →
    keys.Nodup → u.markSeen keys seen = (u.markAll keys, some (keys.reverse ++ seen))
  | u, [], seen, _, _ => rfl
  | u, key :: keys, seen, hseen, hnodup => by
    obtain ⟨hnotMem, hnodup⟩ := List.nodup_cons.mp hnodup
    have htail := markSeen_eq (u.markNoiseLeafSpent key) keys (key :: seen) (fun k hk hmem => by
      rcases List.mem_cons.mp hmem with rfl | hmem
      · exact hnotMem hk
      · exact hseen k (List.mem_cons_of_mem _ hk) hmem) hnodup
    unfold markSeen
    rw [if_neg (hseen key (List.mem_cons_self ..)), htail]
    simp [markAll]

/-- The input loop of a replay: coins that are not there are passed over. -/
theorem replayInputs_spec : ∀ (inputs : List TxInput) (seen : List NoiseLeafKey) (u : UTXOSet),
      (∀ input ∈ inputs, (NoiseProof.readAll input.noiseProof).2 = none) →
      (inputs.flatMap TxInput.leaves).Nodup →
      (∀ key ∈ inputs.flatMap TxInput.leaves, key ∉ seen) →
      ∃ u', u.replayInputs inputs seen = (u', true) ∧
        u'.getCoin = replay (inputs.map fun input => (input.outpoint, none)) u.getCoin ∧
        u'.isNoiseLeafSpent = replay ((inputs.flatMap TxInput.leaves).map fun key => (key, true))
          u.isNoiseLeafSpent ∧
        (Rep u → Rep u') ∧
        ((∀ input ∈ inputs, input.outpoint ∈ T) →
          (∀ key ∈ inputs.flatMap TxInput.leaves, key ∈ L) → Within T L u u')
  | [], _, u, _, _, _ => ⟨u, rfl, rfl, rfl, id, fun _ _ => Within.refl T L u⟩
  | input :: inputs, seen, u, hparse, hnodup, hseen => by
    rw [List.flatMap_cons] at hnodup hseen
    obtain ⟨hnodup, hnodup', hcross⟩ := List.nodup_append'.mp hnodup
    let v := (u.spendCoin input.outpoint).1.markAll input.leaves
    obtain ⟨u', hrun, hcoins, hleaves, hrep, hwithin⟩ := replayInputs_spec
      inputs (input.leaves.reverse ++ seen) v
      (fun i hi => hparse i (List.mem_cons_of_mem _ hi)) hnodup' fun key hkey hmem => by
        rcases List.mem_append.mp hmem with h | h
        · exact hcross (List.mem_reverse.mp h) hkey
        · exact hseen key (List.mem_append_right _ hkey) h
    have hv : v.getCoin = Function.update u.getCoin input.outpoint none := by
      simp [v, getCoin_markAll]
    have hvl : v.isNoiseLeafSpent =
        replay (input.leaves.map fun key => (key, true)) u.isNoiseLeafSpent := by
      simp [v, isNoiseLeafSpent_markAll]
    refine ⟨u', ?_, ?_, ?_, fun h => hrep ((h.spendCoin _).markAll _), fun hT hL => ?_⟩
    · have hp := hparse input (List.mem_cons_self ..)
      unfold replayInputs
      by_cases hempty : input.noiseProof = []
      · have hnone : input.leaves = [] := by
          simp [TxInput.leaves, hempty, NoiseProof.readAll, NoiseProof.readFrom, leafKeys]
        rw [hnone] at hrun
        simp only [hempty, List.isEmpty_nil, if_true]
        simpa [v, hnone, markAll] using hrun
      · have hmark := markSeen_eq (u.spendCoin input.outpoint).1 input.leaves seen
          (fun key hkey => hseen key (List.mem_append_left _ hkey)) hnodup
        unfold TxInput.leaves at hmark
        simp only [List.isEmpty_iff, hempty, if_false, hmark, hp, Option.isSome_none,
          Bool.false_eq_true]
        exact hrun
    · simp [hcoins, hv]
    · simp [hleaves, hvl]
    · refine Within.trans ?_ (hwithin (fun i hi => hT i (List.mem_cons_of_mem _ hi))
        fun key hkey => hL key (List.mem_append_right _ hkey))
      exact (Within.spendCoin (hT input (List.mem_cons_self ..)) u).trans
        (Within.markAll (fun key hkey => hL key (List.mem_append_left _ hkey)) _)

/-- **`ApplyTransactionForReplay` replays the journals of the transaction**, whatever coins are
there. -/
theorem applyTransactionForReplay_spec (u : UTXOSet) (tx : Transaction) (height : UInt32)
    (isCoinbase : Bool)
    (hparse : isCoinbase = false → ∀ input ∈ tx.inputs, (NoiseProof.readAll input.noiseProof).2 = none)
    (hnodup : isCoinbase = false → tx.leaves.Nodup) :
    ∃ u', u.applyTransactionForReplay tx height isCoinbase = (u', true) ∧
      u'.getCoin = replay (tx.coinLog height isCoinbase) u.getCoin ∧
      u'.isNoiseLeafSpent = replay (tx.leafLog isCoinbase) u.isNoiseLeafSpent ∧
      (Rep u → Rep u') ∧
      ((∀ o ∈ keys (tx.coinLog height isCoinbase), o ∈ T) →
        (∀ key ∈ keys (tx.leafLog isCoinbase), key ∈ L) → Within T L u u') := by
  have hcreated : (∀ o ∈ keys (tx.coinLog height isCoinbase), o ∈ T) →
      ∀ item ∈ tx.created height isCoinbase, item.1 ∈ T := by
    intro hT item hitem
    refine hT item.1 ?_
    simp only [Transaction.coinLog, keys_append, List.mem_append, keys_map]
    exact .inr (List.mem_map_of_mem hitem)
  cases isCoinbase with
  | true =>
    refine ⟨u.addCoins (tx.created height true), rfl, getCoin_coinbase u tx height,
      isNoiseLeafSpent_addCoins _ u, fun h => h.addCoins _, fun hT _ => ?_⟩
    exact Within.addCoins (hcreated hT) u
  | false =>
    obtain ⟨v, hrun, hcoins, hleaves, hrep, hwithin⟩ := replayInputs_spec
      tx.inputs [] u (hparse rfl) (hnodup rfl) (by simp)
    refine ⟨v.addCoins (tx.created height false), ?_, ?_, ?_, fun h => (hrep h).addCoins _,
      fun hT hL => ?_⟩
    · unfold applyTransactionForReplay
      simp only [Bool.false_eq_true, if_false, hrun]
      rfl
    · rw [getCoin_addCoins, live_created, hcoins]
      simp [Transaction.coinLog]
    · rw [isNoiseLeafSpent_addCoins, hleaves]
      rfl
    · refine Within.trans (hwithin (fun i hi => hT _ ?_) fun key hkey => hL key ?_)
        (Within.addCoins (hcreated hT) v)
      · simp only [Transaction.coinLog, keys_append, List.mem_append]
        left
        simpa using ⟨i, hi, rfl⟩
      · simpa [Transaction.leafLog, Transaction.leaves] using hkey

end UTXOSet

end Moneu
