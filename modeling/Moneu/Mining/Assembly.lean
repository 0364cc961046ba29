/-
# The order of block assembly

`GetTransactions` is meant to return the highest fee rate first, with admission order as the tie-breaker.  It
walks `mByFeeRate`, whose keys are pairs of fee rate and sequence number, from the back.  Going backwards
turns BOTH parts of the key around: among entries of one fee rate the LAST one admitted comes first.

So the order is the documented one on the first `maxCount` places exactly if no two entries of one fee rate
compete for them (`getTransactions_eq_assembled_iff`).  Whatever the order, no two of them conflict
(`getTransactions_disjoint`), also after the counters of the pool have wrapped around.
-/
import Moneu.Consensus.PoolSound
import Moneu.Lib.Ranking
import Moneu.Mining.Miner

namespace Moneu

open Index

namespace Mempool

/-! ## 1. The walk -/

section GetTransactions

variable {p : Mempool}

theorem Sound.nodup_ranked (hp : Sound p) : (p.byFeeRate.entries.map Sigma.snd).Nodup := by
  refine List.Nodup.map_on ?_ p.byFeeRate.nodupKeys.nodup
  rintro ⟨k, h⟩ hslot ⟨k', h'⟩ hslot' (rfl : h = h')
  obtain ⟨e, he, rfl⟩ := hp.ranked (AList.mem_lookup_iff.mpr hslot)
  obtain ⟨e', he', rfl⟩ := hp.ranked (AList.mem_lookup_iff.mpr hslot')
  rw [he] at he'
  cases he'
  rfl

/-- The entries that `GetTransactions` comes to, in its order. -/
def walked (p : Mempool) : List Entry :=
  (p.byFeeRate.entries.insertionSort fun a b => b.1.rank ≤ a.1.rank).filterMap fun slot =>
    p.index.lookup slot.2

theorem getTransactions_eq (p : Mempool) (maxCount : Nat) :
    p.getTransactions maxCount = (p.walked.map Entry.tx).take maxCount := by
  rw [getTransactions, walked, List.map_filterMap]

theorem Sound.nodup_walked (hp : Sound p) : (p.walked.map fun e => e.tx.getHash).Nodup := by
  have hhashes : ∀ slots : List (Sigma fun _ : RankKey => Bytes32),
      ((slots.filterMap fun slot => p.index.lookup slot.2).map fun e => e.tx.getHash).Sublist
        (slots.map Sigma.snd) := by
    intro slots
    induction slots with
    | nil => exact .slnil
    | cons slot slots ih =>
      cases he : p.index.lookup slot.2 with
      | none =>
        rw [List.filterMap_cons_none (by exact he), List.map_cons]
        exact ih.cons _
      | some e =>
        rw [List.filterMap_cons_some (by exact he), List.map_cons, List.map_cons, hp.hash he]
        exact ih.cons_cons _
  have hsorted := hhashes (p.byFeeRate.entries.insertionSort fun a b => b.1.rank ≤ a.1.rank)
  have hnodup := ((List.perm_insertionSort (fun a b : Sigma fun _ : RankKey => Bytes32 =>
    b.1.rank ≤ a.1.rank) p.byFeeRate.entries).map Sigma.snd).nodup_iff.mpr hp.nodup_ranked
  exact hnodup.sublist hsorted

/-- **What `GetTransactions` returns can stand in one block**: after every sequence of calls, also when counters
have wrapped around, no two of the transactions have one txid, spend one outpoint or reveal one leaf. -/
theorem getTransactions_disjoint [Doubles] (maxBytes : UInt64) (ops : List PoolOp) (maxCount : Nat) :
    ((PoolOp.runAll (new maxBytes) ops).getTransactions maxCount).Pairwise fun tx tx' =>
      tx.getHash ≠ tx'.getHash ∧ (outpoints tx).Disjoint (outpoints tx') ∧
        (extractLeafKeys tx).1.Disjoint (extractLeafKeys tx').1 := by
  have hp := Sound.runAll ops (sound_new maxBytes)
  generalize PoolOp.runAll (new maxBytes) ops = p at hp ⊢
  have hfound : ∀ e ∈ p.walked, p.index.lookup e.tx.getHash = some e := by
    intro e he
    obtain ⟨slot, -, hlookup⟩ := List.mem_filterMap.mp he
    rwa [hp.hash hlookup]
  rw [getTransactions_eq]
  refine (List.pairwise_map.mpr ?_).sublist (List.take_sublist ..)
  refine (List.pairwise_map.mp hp.nodup_walked).imp_of_mem fun {e e'} he he' hne => ⟨hne, ?_, ?_⟩
  · exact fun o ho ho' => hne (hp.spends.unique (hfound e he) (hfound e' he') ho ho')
  · rw [← hp.leafKeys (hfound e he), ← hp.leafKeys (hfound e' he')]
    exact fun key hk hk' => hne (hp.leafSpends.unique (hfound e he) (hfound e' he') hk hk')

end GetTransactions

/-! ## 2. The documented order -/

def entries (p : Mempool) : List Entry := p.index.entries.map Sigma.snd

/-- The first `maxCount` entries, by fee rate from the highest down and, among equals, in the order of
admission. -/
def assembled (p : Mempool) (maxCount : Nat) : List Transaction :=
  ((p.entries.insertionSort
    (Ranking.Up (fun e => e.feePerK.toInt) fun e => e.seq.toNat)).map Entry.tx).take maxCount

theorem mem_entries {p : Mempool} {e : Entry} : e ∈ p.entries ↔ ∃ h, p.index.lookup h = some e := by
  constructor
  · intro he
    obtain ⟨slot, hslot, rfl⟩ := List.mem_map.mp he
    exact ⟨slot.1, AList.mem_lookup_iff.mpr hslot⟩
  · rintro ⟨h, he⟩
    exact List.mem_map.mpr ⟨⟨h, e⟩, AList.mem_lookup_iff.mp he, rfl⟩

/-! ## 3. The order of the walk -/

section Walk

variable {p : Mempool}

theorem Rep.tx_inj (hp : Rep p) {e e' : Entry} (he : e ∈ p.entries) (he' : e' ∈ p.entries)
    (htx : e.tx = e'.tx) : e = e' := by
  obtain ⟨h, he⟩ := mem_entries.mp he
  obtain ⟨h', he'⟩ := mem_entries.mp he'
  have hh : h = h' := by rw [← hp.hash he, ← hp.hash he', htx]
  rw [hh, he'] at he
  exact (Option.some.inj he).symm

theorem Rep.feeKey_inj (hp : Rep p) {e e' : Entry} (he : e ∈ p.entries) (he' : e' ∈ p.entries)
    (hkey : e.feeKey = e'.feeKey) : e = e' := by
  obtain ⟨h, he⟩ := mem_entries.mp he
  obtain ⟨h', he'⟩ := mem_entries.mp he'
  have hh : h = h' :=
    hp.byFeeRate.unique he he' (List.mem_singleton_self _) (by rw [hkey]; exact List.mem_singleton_self _)
  rw [hh, he'] at he
  exact (Option.some.inj he).symm

theorem Rep.nodup_entries (hp : Rep p) : p.entries.Nodup := by
  refine List.Nodup.of_map (fun e => e.tx.getHash) ?_
  have hkeys : p.entries.map (fun e => e.tx.getHash) = p.index.keys := by
    rw [entries, List.map_map]
    refine List.map_congr_left ?_
    intro slot hslot
    exact hp.hash (AList.mem_lookup_iff.mpr hslot)
  rw [hkeys]
  exact AList.keys_nodup p.index

theorem Rep.perm_walked (hp : Rep p) : p.entries.Perm p.walked := by
  refine (List.perm_ext_iff_of_nodup hp.nodup_entries (List.Nodup.of_map _ hp.sound.nodup_walked)).mpr ?_
  intro e
  rw [mem_entries, walked, List.mem_filterMap]
  constructor
  · rintro ⟨h, he⟩
    have hslot := hp.byFeeRate.lookup_eq he (List.mem_singleton_self _)
    exact ⟨⟨e.feeKey, h⟩, (List.mem_insertionSort _).mpr (AList.mem_lookup_iff.mp hslot), he⟩
  · rintro ⟨slot, -, he⟩
    exact ⟨slot.2, he⟩

/-- **The walk turns both parts of the key around.** -/
theorem Rep.pairwise_walked (hp : Rep p) :
    p.walked.Pairwise (Ranking.Down (fun e => e.feePerK.toInt) fun e => e.seq.toNat) := by
  have hsorted : (p.byFeeRate.entries.insertionSort fun a b => b.1.rank ≤ a.1.rank).Pairwise
      fun a b => b.1.rank ≤ a.1.rank := List.pairwise_insertionSort _ _
  rw [walked, List.pairwise_filterMap]
  refine hsorted.imp_of_mem ?_
  intro slot slot' hslot hslot' hle e he e' he'
  have hkey : ∀ {slot : Sigma fun _ : RankKey => Bytes32} {e : Entry},
      slot ∈ p.byFeeRate.entries.insertionSort (fun a b => b.1.rank ≤ a.1.rank) →
      p.index.lookup slot.2 = some e → e.feeKey = slot.1 := by
    intro slot e hslot he
    have hmem := (List.mem_insertionSort _).mp hslot
    obtain ⟨e', he', hkey⟩ := hp.sound.ranked (AList.mem_lookup_iff.mpr hmem)
    rw [he] at he'
    cases he'
    exact hkey
  rw [← hkey hslot he, ← hkey hslot' he', RankKey.rank, RankKey.rank, Prod.Lex.toLex_le_toLex] at hle
  rcases hle with hlt | ⟨heq, hseq⟩
  · exact .inl hlt
  · exact .inr ⟨heq.symm, hseq⟩

/-- Entries in two arrangements with the same transactions are the same. -/
theorem Rep.map_tx_inj (hp : Rep p) : ∀ {es es' : List Entry}, (∀ e ∈ es, e ∈ p.entries) →
    (∀ e ∈ es', e ∈ p.entries) → es.map Entry.tx = es'.map Entry.tx → es = es'
  | [], [], _, _, _ => rfl
  | e :: es, e' :: es', hes, hes', h => by
    obtain ⟨hhead, htail⟩ := List.cons.inj h
    rw [hp.tx_inj (hes e (List.mem_cons_self ..)) (hes' e' (List.mem_cons_self ..)) hhead,
      hp.map_tx_inj (fun x hx => hes x (List.mem_cons_of_mem _ hx))
        (fun x hx => hes' x (List.mem_cons_of_mem _ hx)) htail]

/-- **The documented order, exactly when no tie is in the way.** -/
theorem Rep.getTransactions_iff (hp : Rep p) (maxCount : Nat) :
    p.getTransactions maxCount = p.assembled maxCount ↔
      ∀ e ∈ p.entries, ∀ e' ∈ p.entries, e ≠ e' → e.feePerK = e'.feePerK →
        maxCount ≤ p.entries.countP fun other => decide (e.feePerK < other.feePerK) := by
  have hsort : (p.entries.insertionSort (Ranking.Up (fun e => e.feePerK.toInt) fun e => e.seq.toNat)).Perm
      p.entries := List.perm_insertionSort _ _
  have hpairs : (p.entries.insertionSort
      (Ranking.Up (fun e => e.feePerK.toInt) fun e => e.seq.toNat)).Pairwise
        (Ranking.Up (fun e => e.feePerK.toInt) fun e => e.seq.toNat) := List.pairwise_insertionSort _ _
  have hties := Ranking.take_eq_take_iff (hsort.trans hp.perm_walked) hpairs hp.pairwise_walked (by
    intro e he e' he' hrate hseq
    refine hp.feeKey_inj (hsort.mem_iff.mp he) (hsort.mem_iff.mp he') ?_
    exact Prod.ext (Int64.toInt_inj.mp hrate) (UInt64.toNat_inj.mp hseq)) maxCount
  have htake : p.getTransactions maxCount = p.assembled maxCount ↔
      (p.entries.insertionSort (Ranking.Up (fun e => e.feePerK.toInt) fun e => e.seq.toNat)).take maxCount =
        p.walked.take maxCount := by
    rw [getTransactions_eq, assembled, ← List.map_take, ← List.map_take]
    refine ⟨fun h => (hp.map_tx_inj ?_ ?_ h).symm, fun h => by rw [h]⟩
    · exact fun e he => hp.perm_walked.mem_iff.mpr (List.mem_of_mem_take he)
    · exact fun e he => hsort.mem_iff.mp (List.mem_of_mem_take he)
  rw [htake, hties]
  simp only [hsort.mem_iff, hsort.countP_eq, Int64.toInt_inj, ← Int64.lt_iff_toInt_lt]

end Walk

/-! ## 4. Runs -/

/-- **The order of assembly**, after every sequence of calls in which no counter wraps. -/
theorem getTransactions_eq_assembled_iff [Doubles] (maxBytes : UInt64) (ops : List PoolOp)
    (hfits : PoolOp.Every PoolOp.Fits (new maxBytes) ops) (maxCount : Nat) :
    (PoolOp.runAll (new maxBytes) ops).getTransactions maxCount =
        (PoolOp.runAll (new maxBytes) ops).assembled maxCount ↔
      ∀ e ∈ (PoolOp.runAll (new maxBytes) ops).entries, ∀ e' ∈ (PoolOp.runAll (new maxBytes) ops).entries,
        e ≠ e' → e.feePerK = e'.feePerK →
          maxCount ≤ (PoolOp.runAll (new maxBytes) ops).entries.countP
            fun other => decide (e.feePerK < other.feePerK) :=
  ((rep_new maxBytes).runAll ops UInt64.zero_le hfits).1.getTransactions_iff maxCount

def twoPayments : List PoolOp := [.add 0 (branch 0) paymentFee, .add 0 (branch 1) paymentFee]

theorem runAll_twoPayments [Doubles] :
    PoolOp.Every PoolOp.Fits (new DEFAULT_MAX_BYTES) twoPayments ∧
      PoolOp.runAll (new DEFAULT_MAX_BYTES) twoPayments =
        ((new DEFAULT_MAX_BYTES).insertEntry 0 (branch 0) paymentFee).insertEntry 0 (branch 1) paymentFee := by
  have hne : (branch 1).getHash ≠ (branch 0).getHash := getHash_branch_ne (by decide) (by decide) (by decide)
  have hroot : sourceHash ∉ [branch 0].map Transaction.getHash := by
    rw [List.map_singleton, List.mem_singleton]
    exact fun heq => (getHash_branch_ne_source (by decide)).1 heq.symm
  have hclear : Clear (new DEFAULT_MAX_BYTES) 0 (branch 0) paymentFee :=
    filled_new.clear (by decide) (by decide) (by decide) List.not_mem_nil List.not_mem_nil
      (chainTooLong_payment (filled_new.not_mem List.not_mem_nil)) (by decide)
  have hone := filled_new.insertEntry (by decide) hclear (by decide)
  have hclear' : Clear ((new DEFAULT_MAX_BYTES).insertEntry 0 (branch 0) paymentFee) 0 (branch 1)
      paymentFee :=
    hone.clear (by decide) (by decide) (by decide) (fun hmem => hne (List.mem_singleton.mp hmem)) (by decide)
      (chainTooLong_payment (hone.not_mem hroot)) (by decide)
  have hfirst : ((new DEFAULT_MAX_BYTES).addTransaction 0 (branch 0) paymentFee).1 =
      (new DEFAULT_MAX_BYTES).insertEntry 0 (branch 0) paymentFee := by
    rw [hclear.addTransaction]
  refine ⟨⟨(filled_new.bytes_fit (by decide)).2, ?_, trivial⟩, ?_⟩
  · rw [PoolOp.run_add, hfirst]
    exact (hone.bytes_fit (by decide)).2
  · rw [twoPayments, PoolOp.runAll_cons, PoolOp.runAll_cons, PoolOp.runAll_nil, PoolOp.run_add,
      PoolOp.run_add, hfirst, hclear'.addTransaction]

theorem feeRate_branch (i : Nat) :
    feeRate paymentFee (sizeOf (branch i)) = feeRate paymentFee (sizeOf (branch 0)) := by
  have hsize : sizeOf (branch i) = sizeOf (branch 0) := by
    rw [← UInt64.toNat_inj, branch, branch, toNat_sizeOf_payment, toNat_sizeOf_payment]
  rw [hsize]

/-- **The last one admitted comes first.** -/
theorem getTransactions_twoPayments :
    let _ := plainDoubles
    (PoolOp.runAll (new DEFAULT_MAX_BYTES) twoPayments).getTransactions 2 ≠
      (PoolOp.runAll (new DEFAULT_MAX_BYTES) twoPayments).assembled 2 := by
  intro _
  obtain ⟨hfits, hrun⟩ := @runAll_twoPayments plainDoubles
  have hrep := ((rep_new DEFAULT_MAX_BYTES).runAll twoPayments UInt64.zero_le hfits).1
  have hne : (branch 0).getHash ≠ (branch 1).getHash := getHash_branch_ne (by decide) (by decide) (by decide)
  rw [hrun] at hrep ⊢
  generalize hfirst : (new DEFAULT_MAX_BYTES).insertEntry 0 (branch 0) paymentFee = p at hrep ⊢
  have hlater : p.entryOf 0 (branch 1) paymentFee ∈ (p.insertEntry 0 (branch 1) paymentFee).entries :=
    mem_entries.mpr ⟨(branch 1).getHash, by rw [lookup_insertEntry, if_pos rfl]⟩
  have hearlier : (new DEFAULT_MAX_BYTES).entryOf 0 (branch 0) paymentFee ∈
      (p.insertEntry 0 (branch 1) paymentFee).entries :=
    mem_entries.mpr ⟨(branch 0).getHash, by
      rw [lookup_insertEntry, if_neg hne, ← hfirst, lookup_insertEntry, if_pos rfl]⟩
  have hother : p.entryOf 0 (branch 1) paymentFee ≠ (new DEFAULT_MAX_BYTES).entryOf 0 (branch 0) paymentFee := by
    intro heq
    exact hne (congrArg (fun e => e.tx.getHash) heq).symm
  have hrates : ∀ e ∈ (p.insertEntry 0 (branch 1) paymentFee).entries,
      e.feePerK = feeRate paymentFee (sizeOf (branch 0)) := by
    intro e he
    obtain ⟨h, he⟩ := mem_entries.mp he
    rw [lookup_insertEntry] at he
    split at he
    · cases he
      exact feeRate_branch 1
    · rw [← hfirst, lookup_insertEntry] at he
      split at he
      · cases he
        rfl
      · cases he
  intro heq
  have hties := (hrep.getTransactions_iff 2).mp heq _ hlater _ hearlier hother
    ((hrates _ hlater).trans (hrates _ hearlier).symm)
  have hnone : (p.insertEntry 0 (branch 1) paymentFee).entries.countP
      (fun other => decide ((p.entryOf 0 (branch 1) paymentFee).feePerK < other.feePerK)) = 0 := by
    rw [List.countP_eq_zero]
    intro e he hlt
    rw [hrates e he, hrates _ hlater, decide_eq_true_eq] at hlt
    exact Int64.lt_irrefl hlt
  omega

/-- The run of the two payments. -/
theorem getTransactions_eq_assembled_iff_twoPayments :
    let _ := plainDoubles
    PoolOp.Every PoolOp.Fits (new DEFAULT_MAX_BYTES) twoPayments ∧
      ((PoolOp.runAll (new DEFAULT_MAX_BYTES) twoPayments).getTransactions 2 =
          (PoolOp.runAll (new DEFAULT_MAX_BYTES) twoPayments).assembled 2 ↔
        ∀ e ∈ (PoolOp.runAll (new DEFAULT_MAX_BYTES) twoPayments).entries,
          ∀ e' ∈ (PoolOp.runAll (new DEFAULT_MAX_BYTES) twoPayments).entries,
            e ≠ e' → e.feePerK = e'.feePerK →
              2 ≤ (PoolOp.runAll (new DEFAULT_MAX_BYTES) twoPayments).entries.countP
                fun other => decide (e.feePerK < other.feePerK)) := by
  intro _
  have hfits := runAll_twoPayments.1
  exact ⟨hfits, getTransactions_eq_assembled_iff DEFAULT_MAX_BYTES twoPayments hfits 2⟩

end Mempool

end Moneu
