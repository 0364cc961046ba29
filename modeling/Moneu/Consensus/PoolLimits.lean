/-
# The chain limits of the pool

`AddTransaction` counts the ancestors of the transaction it is given, and the descendants of the
entries that transaction names.  It does not look at the ancestors further up, whose descendants
become one more as well, and it does not look down: entries that name the transaction already are
not counted, although they become its descendants with everything that hangs on them.

The limits therefore hold in every run that adds no transaction below an entry that is full and
none above an entry (`withinLimits_runAll`), and they do not hold in general: twenty-five payments
that wait for their parent get it as a twenty-sixth entry (`late_parent`).

Nothing here rests on the order of the tables: only the table of entries is looked at.
-/
import Moneu.Consensus.PoolIndex

namespace Moneu

open Worklist

namespace Mempool

/-! ## 1. Parents -/

def named (tx : Transaction) : List Bytes32 := tx.inputs.map TxInput.prevTxHash

/-- The entry `b` names the entry `a`. -/
def HasParent (p : Mempool) (b a : Bytes32) : Prop := Leads p.parents b a

theorem mem_parentsOf {p : Mempool} {tx : Transaction} {a : Bytes32} :
    a ∈ p.parentsOf tx ↔ a ∈ named tx ∧ a ∈ p.index := by
  rw [parentsOf, List.mem_filter, named, decide_eq_true_eq]

theorem hasParent_iff {p : Mempool} {a b : Bytes32} :
    HasParent p b a ↔ ∃ e, p.index.lookup b = some e ∧ a ∈ named e.tx ∧ a ∈ p.index := by
  unfold HasParent Leads parents
  cases p.index.lookup b with
  | none => simp
  | some e => simp [mem_parentsOf]

/-- The ancestors of an entry in the pool, itself included. -/
def ancestors (p : Mempool) (h : Bytes32) : Set Bytes32 := above (HasParent p) h

/-- The descendants of an entry in the pool, itself included. -/
def descendants (p : Mempool) (h : Bytes32) : Set Bytes32 := below (HasParent p) h

/-- **Both limits hold for every entry.** -/
def WithinLimits (p : Mempool) : Prop :=
  ∀ h ∈ p.index, (ancestors p h).encard ≤ MAX_ANCESTORS ∧ (descendants p h).encard ≤ MAX_DESCENDANTS

/-! ## 2. Taking entries out -/

/-- The entries of `q` are entries of `p`. -/
def Within (q p : Mempool) : Prop :=
  ∀ h e, q.index.lookup h = some e → p.index.lookup h = some e

section Within

variable {p q r : Mempool}

theorem Within.trans (hrq : Within r q) (hqp : Within q p) : Within r p :=
  fun h e he => hqp h e (hrq h e he)

theorem Within.of_index_eq (h : q.index = p.index) : Within q p :=
  fun _ _ he => h ▸ he

theorem Within.mem (h : Within q p) {hash : Bytes32} (hmem : hash ∈ q.index) : hash ∈ p.index := by
  obtain ⟨e, he⟩ := Option.isSome_iff_exists.mp (AList.lookup_isSome.mpr hmem)
  exact AList.lookup_isSome.mp (by rw [h hash e he]; rfl)

theorem Within.hasParent (h : Within q p) (b a : Bytes32) (hab : HasParent q b a) :
    HasParent p b a := by
  obtain ⟨e, he, hname, ha⟩ := hasParent_iff.mp hab
  exact hasParent_iff.mpr ⟨e, h b e he, hname, h.mem ha⟩

theorem Within.encard_descendants (h : Within q p) (hash : Bytes32) :
    (descendants q hash).encard ≤ (descendants p hash).encard :=
  Set.encard_le_encard (below_mono h.hasParent hash)

/-- **Fewer entries, fewer ancestors and descendants.** -/
theorem WithinLimits.within (hp : WithinLimits p) (h : Within q p) : WithinLimits q := by
  intro hash hmem
  obtain ⟨habove, hbelow⟩ := hp hash (h.mem hmem)
  constructor
  · exact (Set.encard_le_encard (above_mono h.hasParent hash)).trans habove
  · exact (h.encard_descendants hash).trans hbelow

theorem Loses.within (h : Loses p q) : Within q p := fun _ _ he => h.lookup he

end Within

/-! ## 3. One more entry -/

section Entered

variable [Doubles] {p : Mempool} {now fee : Int64} {tx : Transaction}

theorem lookup_entered (h : Bytes32) :
    (p.entered now tx fee).index.lookup h =
      if h = tx.getHash then some ((p.checkPolicy now tx fee).1.entryOf now tx fee)
      else p.index.lookup h := by
  rw [entered, lookup_insertEntry, (checkPolicy_spec p now tx fee).1.index]

theorem mem_entered {h : Bytes32} :
    h ∈ (p.entered now tx fee).index ↔ h = tx.getHash ∨ h ∈ p.index := by
  rw [← AList.lookup_isSome, lookup_entered]
  split
  case isTrue heq => simp [heq]
  case isFalse hne => simp [hne, AList.lookup_isSome]

/-- No entry names the transaction. -/
def Childless (p : Mempool) (tx : Transaction) : Prop :=
  ∀ h e, p.index.lookup h = some e → tx.getHash ∉ named e.tx

/-- **A transaction that no entry waits for** becomes a new vertex at the bottom. -/
theorem grows_entered (hnew : tx.getHash ∉ p.index) (hchildless : Childless p tx) :
    Grows (HasParent p) (HasParent (p.entered now tx fee)) tx.getHash where
  old := by
    intro b a hb hab
    obtain ⟨e, he, hname, ha⟩ := hasParent_iff.mp hab
    rw [lookup_entered, if_neg hb] at he
    rcases mem_entered.mp ha with rfl | ha
    · exact absurd hname (hchildless b e he)
    · exact hasParent_iff.mpr ⟨e, he, hname, ha⟩
  fresh := by
    intro b a hab heq
    obtain ⟨e, -, -, ha⟩ := hasParent_iff.mp hab
    exact hnew (heq ▸ ha)

theorem hasParent_entered {a : Bytes32} (h : HasParent (p.entered now tx fee) tx.getHash a)
    (hne : a ≠ tx.getHash) : a ∈ p.parentsOf tx := by
  obtain ⟨e, he, hname, ha⟩ := hasParent_iff.mp h
  rw [lookup_entered, if_pos rfl] at he
  cases he
  exact mem_parentsOf.mpr ⟨hname, (mem_entered.mp ha).resolve_left hne⟩

omit [Doubles] in
/-- **`CountAncestorsLocked` counts the ancestors** of the entries a transaction names. -/
theorem mem_explore_parents {a : Bytes32} :
    a ∈ explore p.parents p.index.keys.length 0 ((p.parentsOf tx).foldl push []) ↔
      ∃ s ∈ p.parentsOf tx, a ∈ ancestors p s := by
  have hstart : ∀ s, s ∈ (p.parentsOf tx).foldl push [] ↔ s ∈ p.parentsOf tx := by
    intro s
    rw [mem_pushAll]
    simp
  have hclosed : ∀ b ∈ p.index.keys, ∀ a ∈ p.parents b, a ∈ p.index.keys := by
    intro b _ a hab
    obtain ⟨e, -, -, ha⟩ := hasParent_iff.mp hab
    exact ha
  have hkeys : (p.parentsOf tx).foldl push [] ⊆ p.index.keys := by
    intro s hs
    exact (mem_parentsOf.mp ((hstart s).mp hs)).2
  rw [mem_explore hclosed hkeys (nodup_pushAll List.nodup_nil) (le_refl _)]
  constructor
  · rintro ⟨s, hs, hreach⟩
    exact ⟨s, (hstart s).mp hs, hreach⟩
  · rintro ⟨s, hs, hreach⟩
    exact ⟨s, (hstart s).mpr hs, hreach⟩

/-- **The new entry is within the limit of ancestors**: this is what was counted. -/
theorem encard_ancestors_entered (hgrows :
    Grows (HasParent p) (HasParent (p.entered now tx fee)) tx.getHash)
    (hshort : p.chainTooLong tx = false) :
    (ancestors (p.entered now tx fee) tx.getHash).encard ≤ MAX_ANCESTORS := by
  have hcount : p.countAncestors tx ≤ MAX_ANCESTORS := by
    simp only [chainTooLong, Bool.or_eq_false_iff, decide_eq_false_iff_not] at hshort
    exact Nat.le_of_not_lt hshort.1
  have hheld : ∀ a ∈ ancestors (p.entered now tx fee) tx.getHash,
      a ∈ tx.getHash :: explore p.parents p.index.keys.length 0 ((p.parentsOf tx).foldl push []) := by
    intro a ha
    rcases hgrows.above_self ha with rfl | ⟨s, hs, hne, hreach⟩
    · exact List.mem_cons_self ..
    · exact List.mem_cons_of_mem _ (mem_explore_parents.mpr ⟨s, hasParent_entered hs hne, hreach⟩)
  refine (encard_le_length hheld).trans ?_
  rw [List.length_cons]
  exact_mod_cast hcount

/-- Every entry a transaction descends from can take one more descendant. -/
def RoomBelow (p : Mempool) (tx : Transaction) : Prop :=
  ∀ s ∈ p.parentsOf tx, ∀ a ∈ ancestors p s, (descendants p a).encard < MAX_DESCENDANTS

/-- **A new entry at the bottom, with room above it, keeps the limits.** -/
theorem WithinLimits.entered (hp : WithinLimits p) (hnew : tx.getHash ∉ p.index)
    (hchildless : Childless p tx) (hroom : RoomBelow p tx) (hshort : p.chainTooLong tx = false) :
    WithinLimits (p.entered now tx fee) := by
  have hgrows : Grows (HasParent p) (HasParent (p.entered now tx fee)) tx.getHash :=
    grows_entered hnew hchildless
  intro h hmem
  by_cases hself : h = tx.getHash
  · subst hself
    refine ⟨encard_ancestors_entered hgrows hshort, ?_⟩
    refine (Set.encard_le_encard hgrows.below_self).trans ?_
    rw [Set.encard_singleton]
    exact by decide
  · obtain ⟨habove, hbelow⟩ := hp h ((mem_entered.mp hmem).resolve_left hself)
    refine ⟨(Set.encard_le_encard (hgrows.above_of_ne hself)).trans habove, ?_⟩
    obtain ⟨hinsert, hsame⟩ := hgrows.below_of_ne (k := h)
    by_cases hdown : tx.getHash ∈ below (HasParent (p.entered now tx fee)) h
    -- the entry is an ancestor of the new one, and had room
    · obtain ⟨s, hs, hne, hreach⟩ := (hgrows.above_self hdown).resolve_left hself
      have hlt := hroom s (hasParent_entered hs hne) h hreach
      calc (below (HasParent (p.entered now tx fee)) h).encard
          ≤ (insert tx.getHash (below (HasParent p) h)).encard := Set.encard_le_encard hinsert
        _ ≤ (below (HasParent p) h).encard + 1 := Set.encard_insert_le _ _
        _ ≤ MAX_DESCENDANTS := Order.add_one_le_of_lt hlt
    · exact (Set.encard_le_encard (hsame hdown)).trans hbelow

end Entered

/-! ## 4. Runs -/

section Runs

variable [Doubles]

omit [Doubles] in
theorem Childless.within {p q : Mempool} {tx : Transaction} (h : Childless p tx) (hq : Within q p) :
    Childless q tx := fun hash e he => h hash e (hq hash e he)

omit [Doubles] in
theorem RoomBelow.within {p q : Mempool} {tx : Transaction} (h : RoomBelow p tx) (hq : Within q p) :
    RoomBelow q tx := by
  intro s hs a ha
  obtain ⟨hname, hmem⟩ := mem_parentsOf.mp hs
  exact (hq.encard_descendants a).trans_lt
    (h s (mem_parentsOf.mpr ⟨hname, hq.mem hmem⟩) a (above_mono hq.hasParent s ha))

/-- A transaction is added at the bottom, where there is room. -/
def PoolOp.AtBottom (p : Mempool) : PoolOp → Prop
  | add _ tx _ => Childless p tx ∧ RoomBelow p tx
  | _ => True

theorem WithinLimits.run {p : Mempool} (hp : WithinLimits p) (op : PoolOp) (hop : op.AtBottom p) :
    WithinLimits (op.run p) := by
  cases op with
  | add now tx fee =>
    obtain ⟨hchildless, hroom⟩ := hop
    have hexpired := (loses_expireLocked p now).within
    rcases addTransaction_cases p now tx fee with ⟨-, hsame, -⟩ | ⟨henters, heq, -⟩
    · exact hp.within ((Within.of_index_eq hsame.index).trans hexpired)
    · have hpolicy := (checkPolicy_spec _ now tx fee).2.mp henters.policy
      have hentered : WithinLimits ((p.expireLocked now).entered now tx fee) :=
        (hp.within hexpired).entered (validateForPool_ok henters.valid).2.2
          (hchildless.within hexpired) (hroom.within hexpired) hpolicy.2.2.2
      rw [PoolOp.run_add, heq]
      exact hentered.within (cuts_trimLocked _ now).loses.within
  | remove txHash => exact hp.within (Loses.refl.entry txHash).within
  | removeForBlock blockTxs => exact hp.within (cuts_removeForBlock p blockTxs).loses.within
  | clear =>
    intro h hmem
    exact absurd hmem (AList.notMem_empty h)

theorem WithinLimits.runAll : ∀ (ops : List PoolOp) {p : Mempool}, WithinLimits p →
    PoolOp.Every PoolOp.AtBottom p ops → WithinLimits (PoolOp.runAll p ops)
  | [], _, hp, _ => hp
  | op :: ops, _, hp, hops => WithinLimits.runAll ops (hp.run op hops.1) hops.2

/-- **The limits hold after every run that adds at the bottom.** -/
theorem withinLimits_runAll (maxBytes : UInt64) (ops : List PoolOp)
    (hops : PoolOp.Every PoolOp.AtBottom (new maxBytes) ops) :
    WithinLimits (PoolOp.runAll (new maxBytes) ops) := by
  refine WithinLimits.runAll ops ?_ hops
  intro h hmem
  exact absurd hmem (AList.notMem_empty h)

end Runs

/-! ## 5. A parent that comes late -/

section LateParent

theorem encard_descendants_le (p : Mempool) (h : Bytes32) :
    (descendants p h).encard ≤ (h :: p.index.keys).length := by
  refine encard_le_length ?_
  intro d hd
  rcases Relation.ReflTransGen.cases_head hd with rfl | ⟨a, hda, -⟩
  · exact List.mem_cons_self ..
  · obtain ⟨e, he, -, -⟩ := hasParent_iff.mp hda
    exact List.mem_cons_of_mem _ (AList.mem_keys.mp (AList.lookup_isSome.mp (by rw [he]; rfl)))

/-- A parent, and a child of it. -/
theorem withinLimits_parent_child :
    let ops : List PoolOp :=
      [.add 0 source paymentFee, .add 0 (branch 0) paymentFee, .remove (branch 0).getHash]
    @PoolOp.Every plainDoubles PoolOp.AtBottom (new DEFAULT_MAX_BYTES) ops ∧
      WithinLimits (@PoolOp.runAll plainDoubles (new DEFAULT_MAX_BYTES) ops) := by
  let _ := plainDoubles
  have hempty : ∀ h : Bytes32, (new DEFAULT_MAX_BYTES).index.lookup h = none := AList.lookup_empty
  have hone : Filled ((new DEFAULT_MAX_BYTES).addTransaction 0 source paymentFee).1 [source] :=
    filled_new.add (by decide) (by decide) List.not_mem_nil List.not_mem_nil List.not_mem_nil
      (by decide)
  have hfirst : PoolOp.AtBottom (new DEFAULT_MAX_BYTES) (.add 0 source paymentFee) := by
    constructor
    · intro h e he
      exact absurd (hempty h ▸ he) (by simp)
    · intro s hs
      exact absurd (mem_parentsOf.mp hs).2 (AList.notMem_empty s)
  have hsecond : PoolOp.AtBottom ((new DEFAULT_MAX_BYTES).addTransaction 0 source paymentFee).1
      (.add 0 (branch 0) paymentFee) := by
    generalize ((new DEFAULT_MAX_BYTES).addTransaction 0 source paymentFee).1 = p at hone
    have hkeys : ∀ h ∈ p.index.keys, h ∈ [sourceHash] := by
      intro h hh
      by_contra hne
      refine hone.not_mem ?_ (AList.mem_keys.mpr hh)
      rw [List.map_singleton, hashes_source.1]
      exact hne
    constructor
    · intro h e he hname
      rw [List.mem_singleton.mp (hone.only he)] at hname
      exact (getHash_branch_ne_source (by decide)).2 (List.mem_singleton.mp hname)
    · intro s _ a _
      have hlen := (List.subperm_of_subset p.index.keys_nodup hkeys).length_le
      refine (encard_descendants_le p a).trans_lt ?_
      rw [List.length_cons]
      refine lt_of_le_of_lt (Nat.cast_le.mpr (Nat.succ_le_succ hlen)) ?_
      decide
  have hops : PoolOp.Every PoolOp.AtBottom (new DEFAULT_MAX_BYTES)
      [.add 0 source paymentFee, .add 0 (branch 0) paymentFee, .remove (branch 0).getHash] :=
    ⟨hfirst, hsecond, trivial, trivial⟩
  exact ⟨hops, withinLimits_runAll DEFAULT_MAX_BYTES _ hops⟩

def branches (k : Nat) : List Transaction := ((List.range k).map branch).reverse

theorem branches_succ (k : Nat) : branches (k + 1) = branch k :: branches k := by
  simp [branches, List.range_succ]

theorem mem_branches {k : Nat} {tx : Transaction} : tx ∈ branches k ↔ ∃ i < k, branch i = tx := by
  simp [branches]

def addBranches (k : Nat) : List PoolOp :=
  (List.range k).map fun i => .add 0 (branch i) paymentFee

/-- **The branches are admitted**, one after the other: none names an entry. -/
theorem filled_branches [Doubles] : ∀ k ≤ 25,
    Filled (PoolOp.runAll (new DEFAULT_MAX_BYTES) (addBranches k)) (branches k)
  | 0, _ => filled_new
  | k + 1, hk => by
    have hrun : PoolOp.runAll (new DEFAULT_MAX_BYTES) (addBranches (k + 1)) =
        ((PoolOp.runAll (new DEFAULT_MAX_BYTES) (addBranches k)).addTransaction 0 (branch k)
          paymentFee).1 := by
      rw [addBranches, List.range_succ, List.map_append, ← addBranches, PoolOp.runAll_append,
        List.map_singleton, PoolOp.runAll_cons, PoolOp.runAll_nil, PoolOp.run_add]
    have hindex : ∀ i < 25, UInt32.ofNat i ≠ 0xFFFFFFFF := by decide
    have hinj : ∀ i < 25, ∀ j < 25, UInt32.ofNat i = UInt32.ofNat j → i = j := by decide
    rw [hrun, branches_succ]
    refine (filled_branches k (by omega)).add (by decide) (hindex k hk) ?_ ?_ ?_ ?_
    · intro hmem
      obtain ⟨tx, htx, heq⟩ := List.mem_map.mp hmem
      obtain ⟨i, hi, rfl⟩ := mem_branches.mp htx
      exact getHash_branch_ne (by omega) hk (Nat.ne_of_lt hi) heq
    · intro hmem
      obtain ⟨tx, htx, ho⟩ := List.mem_flatMap.mp hmem
      obtain ⟨i, hi, rfl⟩ := mem_branches.mp htx
      have heq := List.mem_singleton.mp ho
      exact absurd (hinj k hk i (by omega) (congrArg OutPoint.index heq)) (by omega)
    · intro hmem
      obtain ⟨tx, htx, heq⟩ := List.mem_map.mp hmem
      obtain ⟨i, hi, rfl⟩ := mem_branches.mp htx
      exact (getHash_branch_ne_source (by omega)).1 heq
    · simp only [branches, List.length_reverse, List.length_map, List.length_range]
      omega

theorem filled_source [Doubles] :
    Filled (PoolOp.runAll (new DEFAULT_MAX_BYTES) (addBranches 25 ++ [.add 0 source paymentFee]))
      (source :: branches 25) := by
  rw [PoolOp.runAll_append, PoolOp.runAll_cons, PoolOp.runAll_nil, PoolOp.run_add]
  have hlen : (branches 25).length = 25 := by simp [branches]
  refine (filled_branches 25 (le_refl _)).add (by decide) (by decide) ?_ ?_ ?_ ?_
  · intro hmem
    obtain ⟨tx, htx, heq⟩ := List.mem_map.mp hmem
    obtain ⟨i, hi, rfl⟩ := mem_branches.mp htx
    exact (getHash_branch_ne_source hi).1 (heq.trans hashes_source.1)
  · intro hmem
    obtain ⟨tx, htx, ho⟩ := List.mem_flatMap.mp hmem
    obtain ⟨i, -, rfl⟩ := mem_branches.mp htx
    have heq : FixedBytes.ofNat 32 7 = sourceHash :=
      congrArg OutPoint.txHash (List.mem_singleton.mp ho)
    exact (List.nodup_cons.mp nodup_hashes).1 (heq ▸ List.mem_cons_self ..)
  · intro hmem
    obtain ⟨tx, htx, heq⟩ := List.mem_map.mp hmem
    obtain ⟨i, hi, rfl⟩ := mem_branches.mp htx
    exact (getHash_branch_ne_source hi).2 heq
  · rw [hlen]
    decide

/-- **Twenty-five payments wait for their parent.**  When it comes it has twenty-six descendants. -/
theorem late_parent : ∃ ops : List PoolOp,
    ¬ WithinLimits (@PoolOp.runAll plainDoubles (new DEFAULT_MAX_BYTES) ops) := by
  let _ := plainDoubles
  refine ⟨addBranches 25 ++ [.add 0 source paymentFee], ?_⟩
  have hfilled := filled_source
  generalize PoolOp.runAll (new DEFAULT_MAX_BYTES) (addBranches 25 ++ [.add 0 source paymentFee]) = p
    at hfilled
  have hmem : ∀ tx ∈ source :: branches 25, tx.getHash ∈ p.index := by
    intro tx htx
    obtain ⟨e, he, -⟩ := hfilled.holds tx htx
    exact AList.lookup_isSome.mp (by rw [he]; rfl)
  intro hlimits
  have hbound := (hlimits source.getHash (hmem _ (List.mem_cons_self ..))).2
  -- all of them descend from the parent
  have hall : ∀ h ∈ sourceHash :: (List.range 25).map fun i => (branch i).getHash,
      h ∈ descendants p source.getHash := by
    intro h hh
    rcases List.mem_cons.mp hh with rfl | hh
    · rw [hashes_source.1]
      exact .refl
    · obtain ⟨i, hi, rfl⟩ := List.mem_map.mp hh
      have hbranch : branch i ∈ source :: branches 25 :=
        List.mem_cons_of_mem _ (mem_branches.mpr ⟨i, List.mem_range.mp hi, rfl⟩)
      obtain ⟨e, he, htx⟩ := hfilled.holds _ hbranch
      refine .single (hasParent_iff.mpr ⟨e, he, ?_, hmem _ (List.mem_cons_self ..)⟩)
      rw [htx, hashes_source.1]
      exact List.mem_singleton_self _
  have hnodup := (List.nodup_cons.mp nodup_hashes).2
  have hlong := (length_le_encard hnodup hall).trans hbound
  rw [List.length_cons, List.length_map, List.length_range] at hlong
  exact absurd hlong (by decide)

end LateParent

end Mempool

end Moneu
