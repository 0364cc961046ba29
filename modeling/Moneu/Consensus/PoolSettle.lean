/-
# What a connected block takes out of the pool

`RemoveForBlock` is meant to drop the transactions the block confirms and whatever conflicts with them.  It
calls `RemoveRecursiveLocked` for both, and that takes the descendants along.  For a conflicting entry this
is right, as its descendants can never confirm.  For a CONFIRMED entry it is not: its children spend outputs
that exist from now on, and they are dropped all the same.

The calls follow one another and each works on the tables the last one has left.  What has gone at any time
is closed under children, so a later call finds of the descendants of an entry exactly those that are not gone
yet (`Pruned.reach`), and the order of the calls does not matter (`Sound.lookup_removeForBlock`).
-/
import Moneu.Consensus.PoolOrphans

namespace Moneu

open Index Worklist

namespace Mempool

/-! ## 1. Descent inside the pool -/

/-- `t` is `h`, or descends from it through entries of the pool. -/
def Reach (p : Mempool) : Bytes32 → Bytes32 → Prop := Relation.ReflTransGen (Child p)

section Descent

variable {p : Mempool}

/-- **`CollectDescendantsLocked` collects the entry and its descendants.** -/
theorem Sound.mem_collectDescendants (hp : Sound p) {h t : Bytes32} :
    t ∈ p.collectDescendants h ↔ Reach p h t := by
  constructor
  · intro ht
    obtain ⟨x, hx, hreach⟩ := reaches_of_mem_explore _ _ _ t ht
    rw [List.mem_singleton.mp hx] at hreach
    exact Relation.ReflTransGen.mono (fun _ _ => hp.mem_children.mp) _ _ hreach
  · intro hreach
    induction hreach with
    | refl => exact Mempool.mem_collectDescendants p h
    | tail _ hchild ih => exact closed_collectDescendants p h _ ih _ (hp.mem_children.mpr hchild)

end Descent

/-! ## 2. Removals that follow one another -/

/-- `q` is `p` without the entries `gone`, which have no children among the others. -/
structure Pruned (p : Mempool) (gone : Set Bytes32) (q : Mempool) : Prop where
  sound : Sound q
  lookup : ∀ h e, q.index.lookup h = some e ↔ p.index.lookup h = some e ∧ h ∉ gone
  closed : ∀ {h t}, h ∈ gone → Child p h t → t ∈ gone

section Pruned

variable {p q : Mempool} {gone : Set Bytes32}

theorem Sound.pruned (hp : Sound p) : Pruned p ∅ p where
  sound := hp
  lookup := fun h e => by simp
  closed := fun hgone => absurd hgone (Set.notMem_empty _)

theorem Pruned.of_eq {gone' : Set Bytes32} (h : Pruned p gone q) (heq : gone' = gone) : Pruned p gone' q :=
  heq ▸ h

theorem Pruned.reach_closed (h : Pruned p gone q) {x t : Bytes32} (hx : x ∈ gone) (hreach : Reach p x t) :
    t ∈ gone := by
  induction hreach with
  | refl => exact hx
  | tail _ hchild ih => exact h.closed ih hchild

/-- **What is left of the descendants of an entry are its descendants among what is left.** -/
theorem Pruned.reach (h : Pruned p gone q) {x t : Bytes32} (ht : t ∉ gone) : Reach q x t ↔ Reach p x t := by
  constructor
  · refine Relation.ReflTransGen.mono ?_ x t
    rintro a b ⟨e, e', he, he', hspends⟩
    exact ⟨e, e', ((h.lookup a e).mp he).1, ((h.lookup b e').mp he').1, hspends⟩
  · intro hreach
    induction hreach with
    | refl => exact .refl
    | @tail b c _ hchild ih =>
      have hb : b ∉ gone := fun hb => ht (h.closed hb hchild)
      obtain ⟨e, e', he, he', hspends⟩ := hchild
      exact (ih hb).tail ⟨e, e', (h.lookup b e).mpr ⟨he, hb⟩, (h.lookup c e').mpr ⟨he', ht⟩, hspends⟩

theorem Pruned.removeRecursive (h : Pruned p gone q) (root : Bytes32) :
    Pruned p (gone ∪ {t | Reach p root t}) (q.removeRecursive root) where
  sound := (Cuts.refl.branch root).loses.sound h.sound
  lookup := fun x e => by
    rw [lookup_removeRecursive, Set.mem_union, not_or, ← and_assoc, ← h.lookup]
    by_cases hgone : x ∈ gone
    · have hnone : q.index.lookup x ≠ some e := fun he => ((h.lookup x e).mp he).2 hgone
      refine iff_of_false ?_ (fun hx => hnone hx.1)
      split
      · simp
      · exact hnone
    · have hcollected : x ∈ q.collectDescendants root ↔ Reach p root x :=
        h.sound.mem_collectDescendants.trans (h.reach hgone)
      split
      · next hmem => simp [hcollected.mp hmem]
      · next hmem => simp [hcollected.not.mp hmem]
  closed := by
    rintro x t (hx | hx) hchild
    · exact .inl (h.closed hx hchild)
    · exact .inr (Relation.ReflTransGen.tail hx hchild)

/-- What goes with the holders of a key. -/
def withHolders (p : Mempool) {K : Type} (keys : Entry → List K) (k : K) : Set Bytes32 :=
  {t | ∃ c e, p.index.lookup c = some e ∧ k ∈ keys e ∧ Reach p c t}

/-- `find` in one of the two conflict tables, and the removal of what it gives. -/
theorem Pruned.removeConflicting (h : Pruned p gone q) {K : Type} [DecidableEq K] {keys : Entry → List K}
    {ix ix' : AList fun _ : K => Bytes32} (hp : Mirrors keys p.index ix) (hq : Mirrors keys q.index ix')
    (k : K) : Pruned p (gone ∪ withHolders p keys k) (q.removeConflicting (ix'.lookup k)) := by
  cases hfound : ix'.lookup k with
  | none =>
    refine h.of_eq (Set.union_eq_left.mpr ?_)
    rintro t ⟨c, e, he, hk, hreach⟩
    refine h.reach_closed ?_ hreach
    by_contra hc
    have hlookup := hq.lookup_eq ((h.lookup c e).mpr ⟨he, hc⟩) hk
    rw [hfound] at hlookup
    cases hlookup
  | some c =>
    obtain ⟨e, he, hk⟩ := (hq k c).mp hfound
    have hep := ((h.lookup c e).mp he).1
    refine (h.removeRecursive c).of_eq (congrArg _ (Set.ext fun t => ⟨?_, fun hreach => ?_⟩))
    · rintro ⟨c', e', he', hk', hreach⟩
      rw [hp.unique hep he' hk hk']
      exact hreach
    · exact ⟨c, e, hep, hk, hreach⟩

theorem Pruned.foldl {α : Type} {f : Mempool → α → Mempool} {taken : α → Set Bytes32}
    (hf : ∀ {gone q} a, Pruned p gone q → Pruned p (gone ∪ taken a) (f q a)) :
    ∀ (l : List α) {gone : Set Bytes32} {q : Mempool}, Pruned p gone q →
      Pruned p (gone ∪ {t | ∃ a ∈ l, t ∈ taken a}) (l.foldl f q)
  | [], _, _, h => h.of_eq (by simp)
  | a :: l, gone, q, h => by
    refine ((Pruned.foldl hf l) (hf a h)).of_eq ?_
    rw [Set.union_assoc]
    congr 1
    ext t
    simp

end Pruned

/-! ## 3. `RemoveForBlock` -/

/-- The leaves a transaction uses; one with a malformed proof uses none. -/
def usedLeaves (tx : Transaction) : List NoiseLeafKey :=
  if (extractLeafKeys tx).2 then (extractLeafKeys tx).1 else []

/-- An entry spends what the transaction spends, or uses a leaf it uses. -/
def Entry.ConflictsWith (e : Entry) (tx : Transaction) : Prop :=
  (∃ o ∈ outpoints tx, o ∈ outpoints e.tx) ∨ ∃ k ∈ usedLeaves tx, k ∈ e.leafKeys

/-- What is removed on account of one transaction. -/
def takenBy (p : Mempool) (tx : Transaction) : Set Bytes32 :=
  {t | tx.isCoinbase = false ∧
    (Reach p tx.getHash t ∨ ∃ c e, p.index.lookup c = some e ∧ e.ConflictsWith tx ∧ Reach p c t)}

section RemoveForBlock

variable {p q : Mempool} {gone : Set Bytes32}

theorem Pruned.removeConfirmed (hp : Sound p) (tx : Transaction) (h : Pruned p gone q) :
    Pruned p (gone ∪ takenBy p tx) (q.removeConfirmed tx) := by
  unfold Mempool.removeConfirmed
  by_cases hcoinbase : tx.isCoinbase = true
  · rw [if_pos hcoinbase]
    refine h.of_eq (Set.union_eq_left.mpr ?_)
    rintro t ⟨hnot, -⟩
    rw [hcoinbase] at hnot
    cases hnot
  · rw [if_neg hcoinbase]
    have hself := h.removeRecursive tx.getHash
    have hspends := Pruned.foldl (fun o hq => hq.removeConflicting hp.spends hq.sound.spends o)
      (outpoints tx) hself
    have hleaves := Pruned.foldl (fun k hq => hq.removeConflicting hp.leafSpends hq.sound.leafSpends k)
      (usedLeaves tx) hspends
    have hloop : (usedLeaves tx).foldl (fun q k => q.removeConflicting (q.leafSpends.lookup k))
        ((outpoints tx).foldl (fun q o => q.removeConflicting (q.spends.lookup o))
          (q.removeRecursive tx.getHash)) =
        if (extractLeafKeys tx).2 then
          (extractLeafKeys tx).1.foldl (fun q k => q.removeConflicting (q.leafSpends.lookup k))
            ((outpoints tx).foldl (fun q o => q.removeConflicting (q.spends.lookup o))
              (q.removeRecursive tx.getHash))
        else (outpoints tx).foldl (fun q o => q.removeConflicting (q.spends.lookup o))
          (q.removeRecursive tx.getHash) := by
      unfold usedLeaves
      split <;> rfl
    rw [hloop] at hleaves
    refine hleaves.of_eq ?_
    rw [Set.union_assoc, Set.union_assoc]
    congr 1
    ext t
    constructor
    · rintro ⟨-, hself | ⟨c, e, he, ⟨o, ho, ho'⟩ | ⟨k, hk, hk'⟩, hreach⟩⟩
      · exact .inl hself
      · exact .inr (.inl ⟨o, ho, c, e, he, ho', hreach⟩)
      · exact .inr (.inr ⟨k, hk, c, e, he, hk', hreach⟩)
    · rintro (hself | ⟨o, ho, c, e, he, ho', hreach⟩ | ⟨k, hk, c, e, he, hk', hreach⟩)
      · exact ⟨Bool.not_eq_true _ ▸ hcoinbase, .inl hself⟩
      · exact ⟨Bool.not_eq_true _ ▸ hcoinbase, .inr ⟨c, e, he, .inl ⟨o, ho, ho'⟩, hreach⟩⟩
      · exact ⟨Bool.not_eq_true _ ▸ hcoinbase, .inr ⟨c, e, he, .inr ⟨k, hk, hk'⟩, hreach⟩⟩

/-- **What is left after `RemoveForBlock`**, whatever the order of the transactions. -/
theorem Sound.lookup_removeForBlock (hp : Sound p) (block : List Transaction) (h : Bytes32) (e : Entry) :
    (p.removeForBlock block).index.lookup h = some e ↔
      p.index.lookup h = some e ∧ ¬ ∃ tx ∈ block, h ∈ takenBy p tx := by
  have hblock := (Pruned.foldl (fun tx hq => hq.removeConfirmed hp tx) block hp.pruned).lookup h e
  rw [Set.empty_union] at hblock
  exact hblock

end RemoveForBlock

/-! ## 4. What the block settles -/

def Confirmed (p : Mempool) (block : List Transaction) (h : Bytes32) : Prop :=
  h ∈ p.index ∧ ∃ tx ∈ block, tx.isCoinbase = false ∧ tx.getHash = h

/-- The entry conflicts with a transaction of the block, and is not one itself. -/
def Conflicting (p : Mempool) (block : List Transaction) (h : Bytes32) : Prop :=
  ¬ Confirmed p block h ∧
    ∃ e, p.index.lookup h = some e ∧ ∃ tx ∈ block, tx.isCoinbase = false ∧ e.ConflictsWith tx

/-- **What the block settles**: the confirmed entries, and the conflicting ones with their descendants. -/
def Settled (p : Mempool) (block : List Transaction) (h : Bytes32) : Prop :=
  Confirmed p block h ∨ ∃ c, Conflicting p block c ∧ Reach p c h

section Settled

variable {p : Mempool} {block : List Transaction}

theorem Settled.taken {h : Bytes32} (hsettled : Settled p block h) : ∃ tx ∈ block, h ∈ takenBy p tx := by
  rcases hsettled with ⟨-, tx, htx, hcoinbase, rfl⟩ | ⟨c, ⟨-, e, he, tx, htx, hcoinbase, hconflicts⟩, hreach⟩
  · exact ⟨tx, htx, hcoinbase, .inl .refl⟩
  · exact ⟨tx, htx, hcoinbase, .inr ⟨c, e, he, hconflicts, hreach⟩⟩

theorem settled_of_taken (hchildren : ∀ h t, Confirmed p block h → Child p h t → Settled p block t)
    {h : Bytes32} (hmem : h ∈ p.index) {tx : Transaction} (htx : tx ∈ block) (htaken : h ∈ takenBy p tx) :
    Settled p block h := by
  -- Being settled goes down the descent, and each of the removals starts at a settled entry.
  have hdown : ∀ {c t : Bytes32}, Settled p block c → Reach p c t → Settled p block t := by
    intro c t hc hreach
    induction hreach with
    | refl => exact hc
    | tail _ hchild ih =>
      rcases ih with hconfirmed | ⟨c', hconflicting, hreach'⟩
      · exact hchildren _ _ hconfirmed hchild
      · exact .inr ⟨c', hconflicting, hreach'.tail hchild⟩
  obtain ⟨hcoinbase, hself | ⟨c, e, he, hconflicts, hreach⟩⟩ := htaken
  · rcases Relation.ReflTransGen.cases_head hself with rfl | ⟨t, ⟨e, -, he, -, -⟩, -⟩
    · exact .inl ⟨hmem, tx, htx, hcoinbase, rfl⟩
    · have hroot : tx.getHash ∈ p.index := AList.lookup_isSome.mp (by rw [he]; rfl)
      exact hdown (.inl ⟨hroot, tx, htx, hcoinbase, rfl⟩) hself
  · by_cases hconfirmed : Confirmed p block c
    · exact hdown (.inl hconfirmed) hreach
    · exact .inr ⟨c, ⟨hconfirmed, e, he, tx, htx, hcoinbase, hconflicts⟩, hreach⟩

/-- **Exactly what is settled is removed, if and only if no confirmed entry has a child that is not.** -/
theorem Sound.removeForBlock_exact_iff (hp : Sound p) (block : List Transaction) :
    (∀ h e, (p.removeForBlock block).index.lookup h = some e ↔
        p.index.lookup h = some e ∧ ¬ Settled p block h) ↔
      ∀ h t, Confirmed p block h → Child p h t → Settled p block t := by
  constructor
  · intro hexact h t hconfirmed hchild
    by_contra hnot
    have hfound := hchild
    obtain ⟨-, e', -, he', -⟩ := hfound
    have hleft := (hexact t e').mpr ⟨he', hnot⟩
    obtain ⟨-, tx, htx, hcoinbase, rfl⟩ := hconfirmed
    exact ((hp.lookup_removeForBlock block t e').mp hleft).2
      ⟨tx, htx, hcoinbase, .inl (Relation.ReflTransGen.single hchild)⟩
  · intro hchildren h e
    rw [hp.lookup_removeForBlock]
    refine and_congr_right fun he => not_congr ⟨?_, Settled.taken⟩
    rintro ⟨tx, htx, htaken⟩
    exact settled_of_taken hchildren (AList.lookup_isSome.mp (by rw [he]; rfl)) htx htaken

end Settled

/-- **`RemoveForBlock` in every pool.** -/
theorem removeForBlock_settles_iff [Doubles] (maxBytes : UInt64) (ops : List PoolOp) (block : List Transaction) :
    (∀ h e, ((PoolOp.runAll (new maxBytes) ops).removeForBlock block).index.lookup h = some e ↔
        (PoolOp.runAll (new maxBytes) ops).index.lookup h = some e ∧
          ¬ Settled (PoolOp.runAll (new maxBytes) ops) block h) ↔
      ∀ h t, Confirmed (PoolOp.runAll (new maxBytes) ops) block h →
        Child (PoolOp.runAll (new maxBytes) ops) h t → Settled (PoolOp.runAll (new maxBytes) ops) block t :=
  ((sound_new maxBytes).runAll ops).removeForBlock_exact_iff block

/-- **The child of a confirmed transaction is dropped**, though the block does not settle it. -/
theorem removeForBlock_drops_child :
    let p := @PoolOp.runAll plainDoubles (new DEFAULT_MAX_BYTES) familyOps
    ∃ child, p.index.lookup (branch 0).getHash = some child ∧ ¬ Settled p [source] (branch 0).getHash ∧
      (p.removeForBlock [source]).index.lookup (branch 0).getHash = none := by
  intro p
  obtain ⟨-, parent, child, hfamily⟩ := @family plainDoubles
  have hp : Sound p := @Sound.runAll plainDoubles familyOps _ (sound_new _)
  have hcoinbase : source.isCoinbase = false := isCoinbase_payment (by decide)
  have hne : (branch 0).getHash ≠ source.getHash := by
    rw [hashes_source.1]
    exact (getHash_branch_ne_source (by decide)).1
  -- The only entry that spends what `source` spends is `source` itself, which is confirmed.
  have hconflicting : ∀ c, ¬ Conflicting p [source] c := by
    rintro c ⟨hconfirmed, e, he, tx, htx, -, hconflicts⟩
    rw [List.mem_singleton.mp htx] at hconflicts
    have hmine : c = e.tx.getHash := (hp.hash he).symm
    rcases List.mem_cons.mp (hfamily.filled.only he) with hbranch | hsource
    · rw [Entry.ConflictsWith, hbranch] at hconflicts
      rcases hconflicts with ⟨o, ho, ho'⟩ | ⟨k, hk, -⟩
      · rw [source, outpoints_payment, List.mem_singleton] at ho
        rw [branch, outpoints_payment, List.mem_singleton, ho] at ho'
        have heq : FixedBytes.ofNat 32 7 = sourceHash := congrArg OutPoint.txHash ho'
        exact (List.nodup_cons.mp nodup_hashes).1 (heq ▸ List.mem_cons_self ..)
      · rw [usedLeaves, source, extractLeafKeys_payment] at hk
        cases hk
    · rw [List.mem_singleton.mp hsource] at hmine
      exact hconfirmed ⟨AList.lookup_isSome.mp (by rw [he]; rfl), source, List.mem_singleton_self _,
        hcoinbase, hmine.symm⟩
  have hchild : Child p source.getHash (branch 0).getHash := by
    refine ⟨parent, child, ?_, hfamily.lookup_child, ?_⟩
    · rw [hashes_source.1]
      exact hfamily.lookup_parent
    · rw [hfamily.parent_tx, hfamily.child_tx]
      exact spendsOutputOf_branch
  refine ⟨child, hfamily.lookup_child, ?_, ?_⟩
  · rintro (⟨-, tx, htx, -, heq⟩ | ⟨c, hc, -⟩)
    · rw [List.mem_singleton.mp htx] at heq
      exact hne heq.symm
    · exact hconflicting c hc
  · rw [Option.eq_none_iff_forall_ne_some]
    intro e he
    refine ((hp.lookup_removeForBlock [source] _ e).mp he).2 ⟨source, List.mem_singleton_self _, hcoinbase, ?_⟩
    exact .inl (Relation.ReflTransGen.single hchild)

end Mempool

end Moneu
