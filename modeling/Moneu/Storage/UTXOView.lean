/-
# What the UTXO set looks like from outside

Callers see a UTXO set through two maps, `GetCoin` and `IsNoiseLeafSpent`.  This module says what
every operation does to these maps: each one is the replay of a journal (`Moneu.Lib.Journal`),
whatever the split between cache and database.  `Rep` is the representation invariant that makes
this true of a completed flush as well.
-/
import Mathlib.Data.Finset.SymmDiff
import Moneu.Lib.Journal
import Moneu.Storage.UTXOSet

namespace Moneu

open Journal

/-- A coin as `GetCoin` shows it: a spent one is not there. -/
def Coin.live (c : Coin) : Option Coin := if c.isSpent then none else some c

@[simp]
theorem Coin.live_spent (c : Coin) : c.spent.live = none := rfl

@[simp]
theorem Coin.live_restored (c : Coin) : c.restored.live = some c.restored := rfl

@[simp]
theorem Coin.live_unspent (v : Int64) (p : Bytes32) (h : UInt32) (cb : Bool) :
    (Coin.unspent v p h cb).live = some (Coin.unspent v p h cb) := rfl

theorem Coin.live_eq_some {c d : Coin} : c.live = some d ↔ c.isSpent = false ∧ c = d := by
  unfold Coin.live
  cases hc : c.isSpent <;> simp

theorem Coin.live_eq_none {c : Coin} : c.live = none ↔ c.isSpent = true := by
  unfold Coin.live
  cases hc : c.isSpent <;> simp

namespace UTXOSet

/-! ## 1. The two maps -/

variable {u : UTXOSet} {o : OutPoint}

theorem getCoin_eq (u : UTXOSet) (o : OutPoint) :
    u.getCoin o = match u.cache.lookup o with
      | some entry => entry.coin.live
      | none => (u.db.coins.lookup o).bind Coin.live := by
  unfold getCoin Coin.live
  cases u.cache.lookup o <;> cases u.db.coins.lookup o <;> rfl

theorem getCoin_of_cached {entry : UTXOEntry} (h : u.cache.lookup o = some entry) :
    u.getCoin o = entry.coin.live := by
  rw [getCoin_eq, h]

theorem getCoin_of_not_cached (h : u.cache.lookup o = none) :
    u.getCoin o = (u.db.coins.lookup o).bind Coin.live := by
  rw [getCoin_eq, h]

theorem isSpent_of_getCoin {c : Coin} (h : u.getCoin o = some c) :
    c.isSpent = false := by
  rw [getCoin_eq] at h
  split at h
  · obtain ⟨hs, rfl⟩ := Coin.live_eq_some.mp h
    exact hs
  · obtain ⟨d, -, hd⟩ := Option.bind_eq_some_iff.mp h
    obtain ⟨hs, rfl⟩ := Coin.live_eq_some.mp hd
    exact hs

theorem haveCoin_eq (u : UTXOSet) (o : OutPoint) : u.haveCoin o = (u.getCoin o).isSome := by
  unfold haveCoin getCoin
  cases u.cache.lookup o with
  | some entry => cases hs : entry.coin.isSpent <;> simp [hs]
  | none =>
    cases u.db.coins.lookup o with
    | none => rfl
    | some dbCoin => cases hs : dbCoin.isSpent <;> simp [hs]

theorem isNoiseLeafSpent_iff (u : UTXOSet) (key : NoiseLeafKey) :
    u.isNoiseLeafSpent key = true ↔
      key ∈ u.spentLeafCache ∨ key ∉ u.erasedLeafDirty ∧ key ∈ u.db.leaves := by
  unfold isNoiseLeafSpent
  by_cases hc : key ∈ u.spentLeafCache <;> by_cases he : key ∈ u.erasedLeafDirty <;> simp [hc, he]

/-- The leaf half of the representation invariant: the leaves to be written are cached, no cached
leaf is to be erased, and a cached leaf that need not be written is stored. -/
structure LeafRep (u : UTXOSet) : Prop where
  dirty_cached : u.spentLeafDirty ⊆ u.spentLeafCache
  not_erased : Disjoint u.spentLeafCache u.erasedLeafDirty
  cached_stored : ∀ key ∈ u.spentLeafCache, key ∈ u.spentLeafDirty ∨ key ∈ u.db.leaves

/-- The representation invariant: also, a clean entry is unspent and stored as it is, and stored
coins are unspent. -/
structure Rep (u : UTXOSet) : Prop extends LeafRep u where
  clean : ∀ o entry, u.cache.lookup o = some entry → entry.isDirty = false →
    entry.coin.isSpent = false ∧ u.db.coins.lookup o = some entry.coin
  stored : ∀ o c, u.db.coins.lookup o = some c → c.isSpent = false

theorem LeafRep.openDB (db : CoinsDB) : LeafRep (UTXOSet.openDB db) where
  dirty_cached := by simp [UTXOSet.openDB]
  not_erased := by simp [UTXOSet.openDB]
  cached_stored := by simp [UTXOSet.openDB]

theorem Rep.openDB {db : CoinsDB} (h : ∀ o c, db.coins.lookup o = some c → c.isSpent = false) :
    Rep (UTXOSet.openDB db) where
  toLeafRep := LeafRep.openDB db
  clean o entry he := by simp [UTXOSet.openDB] at he
  stored := h

theorem getCoin_openDB {db : CoinsDB} (h : ∀ o c, db.coins.lookup o = some c → c.isSpent = false)
    (o : OutPoint) : (UTXOSet.openDB db).getCoin o = db.coins.lookup o := by
  rw [getCoin_of_not_cached (by simp [UTXOSet.openDB])]
  change (db.coins.lookup o).bind Coin.live = db.coins.lookup o
  cases hc : db.coins.lookup o with
  | none => rfl
  | some c => simp [Coin.live, h o c hc]

theorem isNoiseLeafSpent_openDB (db : CoinsDB) (key : NoiseLeafKey) :
    (UTXOSet.openDB db).isNoiseLeafSpent key = true ↔ key ∈ db.leaves := by
  simp [isNoiseLeafSpent_iff, UTXOSet.openDB]

/-! ## 2. Single coins and leaves -/

@[simp]
theorem getCoin_setEntry (u : UTXOSet) (o : OutPoint) (entry : UTXOEntry) :
    (u.setEntry o entry).getCoin = Function.update u.getCoin o entry.coin.live := by
  funext k
  by_cases hk : k = o
  · subst hk
    rw [Function.update_self, getCoin_of_cached (AList.lookup_insert _)]
  · rw [Function.update_of_ne hk, getCoin_eq, getCoin_eq]
    simp [setEntry, AList.lookup_insert_ne hk]

@[simp]
theorem isNoiseLeafSpent_setEntry (u : UTXOSet) (o : OutPoint) (entry : UTXOEntry) :
    (u.setEntry o entry).isNoiseLeafSpent = u.isNoiseLeafSpent := rfl

theorem Rep.setEntry (h : Rep u) (o : OutPoint) {entry : UTXOEntry} (hd : entry.isDirty = true) :
    Rep (u.setEntry o entry) where
  clean k e he hclean := by
    by_cases hk : k = o
    · subst hk
      rw [UTXOSet.setEntry, AList.lookup_insert, Option.some.injEq] at he
      rw [← he, hd] at hclean
      cases hclean
    · rw [UTXOSet.setEntry, AList.lookup_insert_ne hk] at he
      exact h.clean k e he hclean
  stored := h.stored
  toLeafRep := ⟨h.dirty_cached, h.not_erased, h.cached_stored⟩

@[simp]
theorem getCoin_eraseCoin (u : UTXOSet) (o : OutPoint) :
    (u.eraseCoin o).getCoin = Function.update u.getCoin o none := by
  funext k
  by_cases hk : k = o
  · subst hk
    rw [Function.update_self, getCoin_eq]
    simp [eraseCoin]
  · rw [Function.update_of_ne hk, getCoin_eq, getCoin_eq]
    simp [eraseCoin, AList.lookup_erase_ne hk]

@[simp]
theorem isNoiseLeafSpent_eraseCoin (u : UTXOSet) (o : OutPoint) :
    (u.eraseCoin o).isNoiseLeafSpent = u.isNoiseLeafSpent := rfl

theorem Rep.eraseCoin (h : Rep u) (o : OutPoint) : Rep (u.eraseCoin o) where
  clean k e he hclean := by
    by_cases hk : k = o
    · subst hk
      simp [UTXOSet.eraseCoin] at he
    · simp only [UTXOSet.eraseCoin, AList.lookup_erase_ne hk] at he ⊢
      exact h.clean k e he hclean
  stored k c hc := by
    by_cases hk : k = o
    · subst hk
      simp [UTXOSet.eraseCoin] at hc
    · simp only [UTXOSet.eraseCoin, AList.lookup_erase_ne hk] at hc
      exact h.stored k c hc
  toLeafRep := ⟨h.dirty_cached, h.not_erased, h.cached_stored⟩

@[simp]
theorem isNoiseLeafSpent_markNoiseLeafSpent (u : UTXOSet) (key : NoiseLeafKey) :
    (u.markNoiseLeafSpent key).isNoiseLeafSpent = Function.update u.isNoiseLeafSpent key true := by
  funext k
  by_cases hk : k = key
  · subst hk
    simp [isNoiseLeafSpent, markNoiseLeafSpent]
  · rw [Function.update_of_ne hk, Bool.eq_iff_iff, isNoiseLeafSpent_iff, isNoiseLeafSpent_iff]
    simp [markNoiseLeafSpent, hk]

@[simp]
theorem isNoiseLeafSpent_unmarkNoiseLeafSpent (u : UTXOSet) (key : NoiseLeafKey) :
    (u.unmarkNoiseLeafSpent key).isNoiseLeafSpent =
      Function.update u.isNoiseLeafSpent key false := by
  funext k
  by_cases hk : k = key
  · subst hk
    simp [isNoiseLeafSpent, unmarkNoiseLeafSpent]
  · rw [Function.update_of_ne hk, Bool.eq_iff_iff, isNoiseLeafSpent_iff, isNoiseLeafSpent_iff]
    simp [unmarkNoiseLeafSpent, hk]

theorem LeafRep.markNoiseLeafSpent (h : LeafRep u) (key : NoiseLeafKey) :
    LeafRep (u.markNoiseLeafSpent key) where
  dirty_cached := Finset.insert_subset_insert key h.dirty_cached
  not_erased := by
    have hd := h.not_erased
    simp only [UTXOSet.markNoiseLeafSpent, Finset.disjoint_left, Finset.mem_insert,
      Finset.mem_erase] at hd ⊢
    rintro k (rfl | hk) ⟨hne, he⟩
    · exact hne rfl
    · exact hd hk he
  cached_stored k hk := by
    simp only [UTXOSet.markNoiseLeafSpent, Finset.mem_insert] at hk ⊢
    rcases hk with rfl | hk
    · exact .inl (.inl rfl)
    · exact (h.cached_stored k hk).imp_left .inr

theorem LeafRep.unmarkNoiseLeafSpent (h : LeafRep u) (key : NoiseLeafKey) :
    LeafRep (u.unmarkNoiseLeafSpent key) where
  dirty_cached := Finset.erase_subset_erase key h.dirty_cached
  not_erased := by
    have hd := h.not_erased
    simp only [UTXOSet.unmarkNoiseLeafSpent, Finset.disjoint_left, Finset.mem_insert,
      Finset.mem_erase] at hd ⊢
    rintro k ⟨hne, hk⟩ (rfl | he)
    · exact hne rfl
    · exact hd hk he
  cached_stored k hk := by
    simp only [UTXOSet.unmarkNoiseLeafSpent, Finset.mem_erase] at hk ⊢
    exact (h.cached_stored k hk.2).imp_left fun hd => ⟨hk.1, hd⟩

theorem Rep.markNoiseLeafSpent (h : Rep u) (key : NoiseLeafKey) :
    Rep (u.markNoiseLeafSpent key) :=
  { h.toLeafRep.markNoiseLeafSpent key with clean := h.clean, stored := h.stored }

theorem Rep.unmarkNoiseLeafSpent (h : Rep u) (key : NoiseLeafKey) :
    Rep (u.unmarkNoiseLeafSpent key) :=
  { h.toLeafRep.unmarkNoiseLeafSpent key with clean := h.clean, stored := h.stored }

theorem spendCoin_cases (u : UTXOSet) (o : OutPoint) : (u.spendCoin o).1 = u ∨
    ∃ entry, entry.isDirty = true ∧ (u.spendCoin o).1 = u.setEntry o entry := by
  unfold spendCoin
  split
  · split
    · exact .inl rfl
    · exact .inr ⟨_, rfl, rfl⟩
  · split
    · exact .inl rfl
    · split
      · exact .inl rfl
      · exact .inr ⟨_, rfl, rfl⟩

/-- Spending a coin that is not there changes nothing, so in every case the coin is gone. -/
@[simp]
theorem getCoin_spendCoin (u : UTXOSet) (o : OutPoint) :
    (u.spendCoin o).1.getCoin = Function.update u.getCoin o none := by
  have hgone : u.getCoin o = none → u.getCoin = Function.update u.getCoin o none := by
    intro h
    rw [← h, Function.update_eq_self]
  unfold spendCoin
  split
  · rename_i entry hcache
    split
    · rename_i hs
      exact hgone (by rw [getCoin_of_cached hcache, Coin.live_eq_none.mpr hs])
    · simp
  · rename_i hcache
    split
    · rename_i hdb
      exact hgone (by rw [getCoin_of_not_cached hcache, hdb]; rfl)
    · rename_i dbCoin hdb
      split
      · rename_i hs
        refine hgone ?_
        rw [getCoin_of_not_cached hcache, hdb]
        exact Coin.live_eq_none.mpr hs
      · simp

@[simp]
theorem isNoiseLeafSpent_spendCoin (u : UTXOSet) (o : OutPoint) :
    (u.spendCoin o).1.isNoiseLeafSpent = u.isNoiseLeafSpent := by
  rcases spendCoin_cases u o with h | ⟨entry, -, h⟩ <;> rw [h]
  rfl

theorem Rep.spendCoin (h : Rep u) (o : OutPoint) : Rep (u.spendCoin o).1 := by
  rcases spendCoin_cases u o with heq | ⟨entry, hd, heq⟩ <;> rw [heq]
  · exact h
  · exact h.setEntry o hd

theorem getCoin_addCoin (u : UTXOSet) (o : OutPoint) (coin : Coin) :
    (u.addCoin o coin).1.getCoin =
      if (u.getCoin o).isSome then u.getCoin else Function.update u.getCoin o coin.live := by
  have hset : (u.addCoinOverwrite o coin).getCoin = Function.update u.getCoin o coin.live :=
    getCoin_setEntry u o _
  unfold addCoin
  rw [getCoin_eq u o]
  cases hcache : u.cache.lookup o with
  | some entry => cases hs : entry.coin.isSpent <;> simp [hs, Coin.live, hset]
  | none =>
    cases hdb : u.db.coins.lookup o with
    | none => simp [hset]
    | some dbCoin => cases hs : dbCoin.isSpent <;> simp [hs, Coin.live, hset]

/-! ## 3. What an operation may touch

Apart from a flush, the operations write cache entries, leaf marks and erasures in the database,
each at keys known beforehand.  `Within T L u u'` says that `u'` comes from `u` by such writes at
the outpoints of `T` and the leaves of `L`; it also bounds what a kill on the way leaves on
disk. -/

/-- One database is another up to the coins at the outpoints of `T`. -/
structure CoinsWithin (T : Set OutPoint) (d d' : CoinsDB) : Prop where
  best : d'.best = d.best
  heads : d'.heads = d.heads
  leaves : d'.leaves = d.leaves
  coins : ∀ o ∉ T, d'.coins.lookup o = d.coins.lookup o

theorem CoinsWithin.refl (T : Set OutPoint) (d : CoinsDB) : CoinsWithin T d d :=
  ⟨rfl, rfl, rfl, fun _ _ => rfl⟩

theorem CoinsWithin.trans {T : Set OutPoint} {d d' d'' : CoinsDB} (h : CoinsWithin T d d')
    (h' : CoinsWithin T d' d'') : CoinsWithin T d d'' where
  best := h'.best.trans h.best
  heads := h'.heads.trans h.heads
  leaves := h'.leaves.trans h.leaves
  coins o ho := (h'.coins o ho).trans (h.coins o ho)

/-- The state `u'` comes from `u` by writes at `T` and `L`. -/
structure Within (T : Set OutPoint) (L : Set NoiseLeafKey) (u u' : UTXOSet) : Prop where
  bestBlock : u'.bestBlock = u.bestBlock
  db : CoinsWithin T u.db u'.db
  cache : ∀ o ∉ T, u'.cache.lookup o = u.cache.lookup o
  spentLeafCache : ∀ k ∉ L, (k ∈ u'.spentLeafCache ↔ k ∈ u.spentLeafCache)
  spentLeafDirty : ∀ k ∉ L, (k ∈ u'.spentLeafDirty ↔ k ∈ u.spentLeafDirty)
  erasedLeafDirty : ∀ k ∉ L, (k ∈ u'.erasedLeafDirty ↔ k ∈ u.erasedLeafDirty)
  trail : ∀ d ∈ u'.trail, d ∈ u.trail ∨ CoinsWithin T u.db d

namespace Within

variable {T : Set OutPoint} {L : Set NoiseLeafKey} {u u' u'' : UTXOSet}

theorem refl (T : Set OutPoint) (L : Set NoiseLeafKey) (u : UTXOSet) : Within T L u u where
  bestBlock := rfl
  db := CoinsWithin.refl T u.db
  cache _ _ := rfl
  spentLeafCache _ _ := Iff.rfl
  spentLeafDirty _ _ := Iff.rfl
  erasedLeafDirty _ _ := Iff.rfl
  trail _ hd := .inl hd

theorem trans (h : Within T L u u') (h' : Within T L u' u'') : Within T L u u'' where
  bestBlock := h'.bestBlock.trans h.bestBlock
  db := h.db.trans h'.db
  cache o ho := (h'.cache o ho).trans (h.cache o ho)
  spentLeafCache k hk := (h'.spentLeafCache k hk).trans (h.spentLeafCache k hk)
  spentLeafDirty k hk := (h'.spentLeafDirty k hk).trans (h.spentLeafDirty k hk)
  erasedLeafDirty k hk := (h'.erasedLeafDirty k hk).trans (h.erasedLeafDirty k hk)
  trail d hd := by
    rcases h'.trail d hd with hd | hd
    · exact h.trail d hd
    · exact .inr (h.db.trans hd)

theorem foldl {X : Type} {f : UTXOSet → X → UTXOSet} :
    ∀ (xs : List X) (u : UTXOSet), (∀ x ∈ xs, ∀ u, Within T L u (f u x)) →
      Within T L u (xs.foldl f u)
  | [], u, _ => refl T L u
  | x :: xs, u, h =>
    (h x (List.mem_cons_self ..) u).trans
      (foldl xs _ fun y hy => h y (List.mem_cons_of_mem _ hy))

theorem setEntry (ho : o ∈ T) (u : UTXOSet) (entry : UTXOEntry) :
    Within T L u (u.setEntry o entry) where
  bestBlock := rfl
  db := CoinsWithin.refl T u.db
  cache _ hk := AList.lookup_insert_ne fun h => hk (h ▸ ho)
  spentLeafCache _ _ := Iff.rfl
  spentLeafDirty _ _ := Iff.rfl
  erasedLeafDirty _ _ := Iff.rfl
  trail _ hd := .inl hd

theorem eraseCoin (ho : o ∈ T) (u : UTXOSet) : Within T L u (u.eraseCoin o) := by
  have hne : ∀ k ∉ T, k ≠ o := fun k hk h => hk (h ▸ ho)
  have hdb : CoinsWithin T u.db (u.eraseCoin o).db :=
    ⟨rfl, rfl, rfl, fun k hk => AList.lookup_erase_ne (hne k hk)⟩
  refine ⟨rfl, hdb, fun k hk => AList.lookup_erase_ne (hne k hk), fun _ _ => Iff.rfl,
    fun _ _ => Iff.rfl, fun _ _ => Iff.rfl, fun d hd => ?_⟩
  rcases List.mem_cons.mp hd with rfl | hd
  · exact .inr hdb
  · exact .inl hd

theorem markNoiseLeafSpent {key : NoiseLeafKey} (hkey : key ∈ L) (u : UTXOSet) :
    Within T L u (u.markNoiseLeafSpent key) := by
  have hne : ∀ k ∉ L, k ≠ key := fun k hk h => hk (h ▸ hkey)
  refine ⟨rfl, CoinsWithin.refl T u.db, fun _ _ => rfl, fun k hk => ?_, fun k hk => ?_,
    fun k hk => ?_, fun _ hd => .inl hd⟩
  all_goals simp [UTXOSet.markNoiseLeafSpent, hne k hk]

theorem unmarkNoiseLeafSpent {key : NoiseLeafKey} (hkey : key ∈ L) (u : UTXOSet) :
    Within T L u (u.unmarkNoiseLeafSpent key) := by
  have hne : ∀ k ∉ L, k ≠ key := fun k hk h => hk (h ▸ hkey)
  refine ⟨rfl, CoinsWithin.refl T u.db, fun _ _ => rfl, fun k hk => ?_, fun k hk => ?_,
    fun k hk => ?_, fun _ hd => .inl hd⟩
  all_goals simp [UTXOSet.unmarkNoiseLeafSpent, hne k hk]

theorem spendCoin (ho : o ∈ T) (u : UTXOSet) : Within T L u (u.spendCoin o).1 := by
  rcases spendCoin_cases u o with h | ⟨entry, -, h⟩ <;> rw [h]
  · exact refl T L u
  · exact setEntry ho u entry

end Within

end UTXOSet

end Moneu
