/-
# Flushing the UTXO set

`FlushCache` changes where things are kept, not what `GetCoin` and `IsNoiseLeafSpent` answer.  For
a flush whose batches are all written this needs the representation invariant; what a failed flush
does to later ones is the subject of section 4.
-/
import Moneu.Storage.TxEffect

namespace Moneu

open Journal

/-- The entry, marked as written. -/
def UTXOEntry.cleaned (entry : UTXOEntry) : UTXOEntry := { entry with isDirty := false }

@[simp]
theorem UTXOEntry.cleaned_coin (entry : UTXOEntry) : entry.cleaned.coin = entry.coin := rfl

namespace UTXOSet

/-! ## 1. Batches -/

theorem lookup_writeCoins (batch : List (OutPoint × Coin)) (t : CoinTable) :
    (fun o => (writeCoins batch t).lookup o) =
      replay (batch.map fun op => (op.1, op.2.live)) fun o => t.lookup o := by
  refine replay_foldl (fun (t : CoinTable) o => t.lookup o) _ _ (fun t op => ?_) batch t
  funext o
  by_cases ho : o = op.1
  · subst ho
    cases hs : op.2.isSpent <;> simp [hs, Coin.live]
  · cases hs : op.2.isSpent
    · simp [Function.update_of_ne ho, AList.lookup_insert_ne ho]
    · simp [Function.update_of_ne ho, AList.lookup_erase_ne ho]

theorem coinsWithin_writeCoins {T : Set OutPoint} {batch : List (OutPoint × Coin)} {d : CoinsDB}
    (h : ∀ op ∈ batch, op.1 ∈ T) : CoinsWithin T d { d with coins := writeCoins batch d.coins } where
  best := rfl
  heads := rfl
  leaves := rfl
  coins o ho := by
    have hview := congrFun (lookup_writeCoins batch d.coins) o
    rw [replay_of_notMem _ fun hmem => ?_] at hview
    · exact hview
    · simp only [keys_map, List.mem_map] at hmem
      obtain ⟨op, hop, rfl⟩ := hmem
      exact ho (h op hop)

/-! ## 2. The loop over the cache -/

/-- What the coin records will be once the batch at hand is written. -/
def Flushing.coins (f : Flushing) : OutPoint → Option Coin :=
  fun o => (writeCoins f.batch f.db.coins).lookup o

theorem Flushing.coins_push (f : Flushing) (o : OutPoint) (c : Coin) :
    (f.push o c).coins = Function.update f.coins o c.live := by
  unfold Flushing.coins Flushing.push
  rw [lookup_writeCoins, lookup_writeCoins]
  simp

theorem Flushing.coins_writeBatch (f : Flushing) : f.writeBatch.coins = f.coins := rfl

/-- The writes the loop makes for a list of entries. -/
def slotLog (slots : List Slot) : List (OutPoint × Option Coin) :=
  (slots.filter fun slot => slot.2.isDirty).map fun slot => (slot.1, slot.2.coin.live)

/-- **A loop that does not throw** has cleaned every entry and collected or written every dirty
one. -/
theorem flushEntries_of_not_threw (fail : Option Nat) : ∀ (slots : List Slot) (f : Flushing),
    (flushEntries fail slots f).2.2 = false →
      (flushEntries fail slots f).1 = slots.map (fun slot => ⟨slot.1, UTXOEntry.cleaned slot.2⟩) ∧
        (flushEntries fail slots f).2.1.coins = replay (slotLog slots) f.coins
  | [], f, _ => ⟨rfl, rfl⟩
  | ⟨o, entry⟩ :: rest, f, h => by
    unfold flushEntries at h ⊢
    by_cases hd : entry.isDirty = true
    · -- a dirty entry joins the batch, which may then be full
      have hlog : slotLog (⟨o, entry⟩ :: rest) = (o, entry.coin.live) :: slotLog rest := by
        simp [slotLog, hd]
      simp only [hd, Bool.not_true, Bool.false_eq_true, if_false] at h ⊢
      rw [hlog, replay_cons, ← Flushing.coins_push]
      split at h
      · split at h
        · simp at h
        · rename_i hfull hok
          obtain ⟨hslots, hcoins⟩ := flushEntries_of_not_threw fail rest _ h
          simp [hok, hslots, hcoins, hfull, UTXOEntry.cleaned, Flushing.coins_writeBatch]
      · rename_i hfull
        obtain ⟨hslots, hcoins⟩ := flushEntries_of_not_threw fail rest _ h
        simp [hslots, hcoins, hfull, UTXOEntry.cleaned]
    · rw [Bool.not_eq_true] at hd
      have hlog : slotLog (⟨o, entry⟩ :: rest) = slotLog rest := by simp [slotLog, hd]
      have hclean : entry.cleaned = entry := by
        cases entry
        simp_all [UTXOEntry.cleaned]
      simp only [hd, Bool.not_false, if_true] at h ⊢
      obtain ⟨hslots, hcoins⟩ := flushEntries_of_not_threw fail rest f h
      simp [hslots, hcoins, hlog, hclean]

theorem flushEntries_none : ∀ (slots : List Slot) (f : Flushing),
    (flushEntries none slots f).2.2 = false
  | [], f => rfl
  | ⟨o, entry⟩ :: rest, f => by
    have ih := flushEntries_none rest
    unfold flushEntries
    split
    · exact ih f
    · dsimp only
      split
      · simpa using ih _
      · exact ih _

theorem flushEntries_coin (fail : Option Nat) : ∀ (slots : List Slot) (f : Flushing),
    List.Forall₂ (fun slot slot' : Slot => slot'.1 = slot.1 ∧ slot'.2.coin = slot.2.coin)
      slots (flushEntries fail slots f).1
  | [], f => .nil
  | ⟨o, entry⟩ :: rest, f => by
    have ih := flushEntries_coin fail rest
    have hrest : List.Forall₂ (fun slot slot' : Slot => slot'.1 = slot.1 ∧
        slot'.2.coin = slot.2.coin) rest rest := List.forall₂_same.mpr fun _ _ => ⟨rfl, rfl⟩
    unfold flushEntries
    split
    · exact .cons ⟨rfl, rfl⟩ (ih f)
    · dsimp only
      split
      · split
        · exact .cons ⟨rfl, rfl⟩ hrest
        · exact .cons ⟨rfl, rfl⟩ (ih _)
      · exact .cons ⟨rfl, rfl⟩ (ih _)

/-- What the loop has on disk and in its batch stays within the entries and the batch it started
with. -/
theorem flushEntries_within {T : Set OutPoint} (fail : Option Nat) :
    ∀ (slots : List Slot) (f : Flushing), (∀ slot ∈ slots, slot.1 ∈ T) → (∀ op ∈ f.batch, op.1 ∈ T) →
      CoinsWithin T f.db (flushEntries fail slots f).2.1.db ∧
        (∀ d ∈ (flushEntries fail slots f).2.1.trail, d ∈ f.trail ∨ CoinsWithin T f.db d) ∧
        ∀ op ∈ (flushEntries fail slots f).2.1.batch, op.1 ∈ T
  | [], f, _, hbatch => ⟨CoinsWithin.refl T f.db, fun _ hd => .inl hd, hbatch⟩
  | ⟨o, entry⟩ :: rest, f, hslots, hbatch => by
    have hrest : ∀ slot ∈ rest, slot.1 ∈ T := fun slot hs => hslots slot (List.mem_cons_of_mem _ hs)
    have hpush : ∀ op ∈ (f.push o entry.coin).batch, op.1 ∈ T := by
      intro op hop
      rcases List.mem_append.mp hop with hop | hop
      · exact hbatch op hop
      · rw [List.mem_singleton.mp hop]
        exact hslots _ (List.mem_cons_self ..)
    have hwrite : CoinsWithin T f.db (f.push o entry.coin).writeBatch.db :=
      coinsWithin_writeCoins hpush
    unfold flushEntries
    split
    · exact flushEntries_within fail rest f hrest hbatch
    · dsimp only
      split
      · split
        · exact ⟨CoinsWithin.refl T f.db, fun _ hd => .inl hd, hpush⟩
        · obtain ⟨hdb, htrail, hb⟩ := flushEntries_within fail rest
            (f.push o entry.coin).writeBatch hrest (by simp [Flushing.writeBatch])
          refine ⟨hwrite.trans hdb, fun d hd => ?_, hb⟩
          rcases htrail d hd with hd | hd
          · rcases List.mem_cons.mp hd with rfl | hd
            · exact .inr hwrite
            · exact .inl hd
          · exact .inr (hwrite.trans hd)
      · exact flushEntries_within fail rest (f.push o entry.coin) hrest hpush

/-! ## 3. `FlushCache` -/

theorem lookup_eq_some_iff {cache : UTXOMap} {o : OutPoint} {entry : UTXOEntry} :
    cache.lookup o = some entry ↔ (⟨o, entry⟩ : Slot) ∈ cache.entries :=
  List.mem_dlookup_iff cache.nodupKeys

theorem replay_slotLog (cache : UTXOMap) (m : OutPoint → Option Coin) (o : OutPoint) :
    replay (slotLog cache.entries) m o =
      match cache.lookup o with
      | some entry => if entry.isDirty then entry.coin.live else m o
      | none => m o := by
  have hkeys : ∀ {b}, (o, b) ∈ slotLog cache.entries →
      ∃ entry, cache.lookup o = some entry ∧ entry.isDirty = true ∧ b = entry.coin.live := by
    intro b hb
    obtain ⟨⟨k, entry⟩, hslot, heq⟩ := List.mem_map.mp hb
    obtain ⟨hmem, hd⟩ := List.mem_filter.mp hslot
    cases heq
    exact ⟨entry, lookup_eq_some_iff.mpr hmem, hd, rfl⟩
  by_cases ho : o ∈ keys (slotLog cache.entries)
  · obtain ⟨entry, hentry, hd, hb⟩ := hkeys (mem_of_replay m ho)
    rw [hb, hentry]
    simp [hd]
  · rw [replay_of_notMem m ho]
    cases hentry : cache.lookup o with
    | none => rfl
    | some entry =>
      have hd : entry.isDirty = false := by
        refine Bool.eq_false_iff.mpr fun hd => ho ?_
        have hslot : (o, entry.coin.live) ∈ slotLog cache.entries :=
          List.mem_map.mpr ⟨⟨o, entry⟩, List.mem_filter.mpr ⟨lookup_eq_some_iff.mp hentry, hd⟩, rfl⟩
        exact List.mem_map.mpr ⟨_, hslot, rfl⟩
      simp [hd]

/-- **A completed flush** with the best block `tip`. -/
structure Flushed (u : UTXOSet) (tip : Bytes32) (u' : UTXOSet) : Prop where
  cache : ∀ o entry', u'.cache.lookup o = some entry' ↔
    ∃ entry, u.cache.lookup o = some entry ∧ entry.coin.isSpent = false ∧ entry' = entry.cleaned
  coins : ∀ o, u'.db.coins.lookup o = match u.cache.lookup o with
    | some entry => if entry.isDirty then entry.coin.live else u.db.coins.lookup o
    | none => u.db.coins.lookup o
  leaves : u'.db.leaves = (u.db.leaves ∪ u.spentLeafDirty) \ u.erasedLeafDirty
  best : u'.db.best = some tip
  heads : u'.db.heads = none
  bestBlock : u'.bestBlock = tip
  spentLeafCache : u'.spentLeafCache = u.spentLeafCache
  spentLeafDirty : u'.spentLeafDirty = ∅
  erasedLeafDirty : u'.erasedLeafDirty = ∅
  trail : ∀ d ∈ u'.trail,
    d ∈ u.trail ∨ CoinsWithin { o | o ∈ u.cache } (u.marked tip) d ∨ d = u'.db

/-- **A flush that threw**: the entries keep their coins, the database changes only at cached
outpoints, the leaves have not moved. -/
structure Unflushed (u u' : UTXOSet) : Prop where
  cached : ∀ o entry, u.cache.lookup o = some entry →
    ∃ entry', u'.cache.lookup o = some entry' ∧ entry'.coin = entry.coin
  not_cached : ∀ o, u.cache.lookup o = none → u'.cache.lookup o = none ∧
    u'.db.coins.lookup o = u.db.coins.lookup o
  leaves : u'.db.leaves = u.db.leaves
  bestBlock : u'.bestBlock = u.bestBlock
  spentLeafCache : u'.spentLeafCache = u.spentLeafCache
  spentLeafDirty : u'.spentLeafDirty = u.spentLeafDirty
  erasedLeafDirty : u'.erasedLeafDirty = u.erasedLeafDirty

/-- The loop, started after the marker batch, stays within the cached outpoints. -/
theorem flushLoop_within (u : UTXOSet) (tip : Bytes32) (fail : Option Nat) :
    CoinsWithin { o | o ∈ u.cache } (u.marked tip) (u.flushLoop tip fail).2.1.db ∧
      ∀ d ∈ (u.flushLoop tip fail).2.1.trail,
        d ∈ u.trail ∨ CoinsWithin { o | o ∈ u.cache } (u.marked tip) d := by
  have hT : ∀ slot ∈ u.cache.entries, slot.1 ∈ { o | o ∈ u.cache } := fun slot hslot =>
    AList.mem_keys.mpr (List.mem_map_of_mem hslot)
  obtain ⟨hdb, htrail, -⟩ := flushEntries_within fail u.cache.entries
    { db := u.marked tip, trail := u.marked tip :: u.trail, batch := [], batchSize := 0, batchNo := 1 }
    hT (by simp)
  refine ⟨hdb, fun d hd => ?_⟩
  rcases htrail d hd with hd | hd
  · rcases List.mem_cons.mp hd with rfl | hd
    · exact .inr (CoinsWithin.refl _ _)
    · exact .inl hd
  · exact .inr hd

theorem flushLoop_unflushed (u : UTXOSet) (tip : Bytes32) (fail : Option Nat) :
    Unflushed u { u with
      db := (u.flushLoop tip fail).2.1.db
      trail := (u.flushLoop tip fail).2.1.trail
      cache := (u.flushLoop tip fail).1 } := by
  have hcoin := flushEntries_coin fail u.cache.entries
    { db := u.marked tip, trail := u.marked tip :: u.trail, batch := [], batchSize := 0, batchNo := 1 }
  have hkeys : (u.flushLoop tip fail).1.keys = u.cache.keys := keys_flushEntries fail _ _
  have hdb := (flushLoop_within u tip fail).1
  refine ⟨fun o entry hentry => ?_, fun o ho => ⟨?_, hdb.coins o ?_⟩, hdb.leaves, rfl, rfl, rfl, rfl⟩
  · -- position by position the coins are the same
    obtain ⟨i, hi, hget⟩ := List.mem_iff_getElem.mp (lookup_eq_some_iff.mp hentry)
    have hi' := hcoin.length_eq ▸ hi
    obtain ⟨hkey, hc⟩ := hcoin.get hi hi'
    simp only [List.get_eq_getElem, hget] at hkey hc
    refine ⟨_, lookup_eq_some_iff.mpr ?_, hc⟩
    have hmem := List.getElem_mem hi'
    rwa [← Sigma.eta (((flushEntries fail u.cache.entries _).1)[i]), hkey] at hmem
  · exact AList.lookup_eq_none.mpr fun h =>
      AList.lookup_eq_none.mp ho (AList.mem_keys.mpr (hkeys ▸ AList.mem_keys.mp h))
  · exact AList.lookup_eq_none.mp ho

theorem flushLoop_flushed {u : UTXOSet} {tip : Bytes32} {fail : Option Nat}
    (hok : (u.flushLoop tip fail).2.2 = false) :
    Flushed u tip (u.flushLast tip (u.flushLoop tip fail).1 (u.flushLoop tip fail).2.1) := by
  obtain ⟨hslots, hcoins⟩ := flushEntries_of_not_threw fail u.cache.entries
    { db := u.marked tip, trail := u.marked tip :: u.trail, batch := [], batchSize := 0, batchNo := 1 }
    hok
  obtain ⟨hdb, htrail⟩ := flushLoop_within u tip fail
  have hentries : (u.flushLoop tip fail).1.entries =
      u.cache.entries.map fun slot => ⟨slot.1, UTXOEntry.cleaned slot.2⟩ := hslots
  refine ⟨fun o entry' => ?_, fun o => ?_, ?_, rfl, rfl, rfl, rfl, rfl, rfl, fun d hd => ?_⟩
  · rw [lookup_eq_some_iff]
    simp only [flushLast, hentries, List.mem_filter, List.mem_map]
    constructor
    · rintro ⟨⟨⟨k, entry⟩, hmem, heq⟩, hs⟩
      cases heq
      exact ⟨entry, lookup_eq_some_iff.mpr hmem, by simpa using hs, rfl⟩
    · rintro ⟨entry, hentry, hs, rfl⟩
      exact ⟨⟨⟨o, entry⟩, lookup_eq_some_iff.mp hentry, rfl⟩, by simpa using hs⟩
  · have hview := congrFun hcoins o
    rw [replay_slotLog] at hview
    exact hview
  · exact congrArg (fun leaves => (leaves ∪ u.spentLeafDirty) \ u.erasedLeafDirty) hdb.leaves
  · rcases List.mem_cons.mp hd with rfl | hd
    · exact .inr (.inr rfl)
    · rcases htrail d hd with hd | hd
      · exact .inl hd
      · exact .inr (.inl hd)

theorem flushCache_cases (u : UTXOSet) (tip : Bytes32) (fail : Option Nat) :
    ((u.flushCache tip fail).2 = .ret true ∧ Flushed u tip (u.flushCache tip fail).1) ∨
      ((u.flushCache tip fail).2 = .threw dbError ∧ Unflushed u (u.flushCache tip fail).1) := by
  unfold flushCache
  split
  · exact .inr ⟨rfl, fun o entry h => ⟨entry, h, rfl⟩, fun o h => ⟨h, rfl⟩, rfl, rfl, rfl, rfl, rfl⟩
  · dsimp only
    split
    · exact .inr ⟨rfl, flushLoop_unflushed u tip fail⟩
    · rename_i hok
      simp only [Bool.or_eq_true, not_or, Bool.not_eq_true] at hok
      exact .inl ⟨rfl, flushLoop_flushed hok.1⟩

theorem flushCache_none (u : UTXOSet) (tip : Bytes32) :
    (u.flushCache tip none).2 = .ret true ∧ Flushed u tip (u.flushCache tip none).1 := by
  rcases flushCache_cases u tip none with h | ⟨h, -⟩
  · exact h
  · have hok : (u.flushLoop tip none).2.2 = false := flushEntries_none _ _
    simp [flushCache, hok] at h

namespace Unflushed

variable {u u' : UTXOSet}

theorem getCoin_eq (h : Unflushed u u') : u'.getCoin = u.getCoin := by
  funext o
  cases hcache : u.cache.lookup o with
  | some entry =>
    obtain ⟨entry', hcache', hcoin⟩ := h.cached o entry hcache
    rw [getCoin_of_cached hcache, getCoin_of_cached hcache', hcoin]
  | none =>
    obtain ⟨hcache', hdb⟩ := h.not_cached o hcache
    rw [getCoin_of_not_cached hcache, getCoin_of_not_cached hcache', hdb]

theorem isNoiseLeafSpent_eq (h : Unflushed u u') :
    u'.isNoiseLeafSpent = u.isNoiseLeafSpent := by
  funext key
  simp only [isNoiseLeafSpent, h.leaves, h.spentLeafCache, h.erasedLeafDirty]

theorem leafRep (h : Unflushed u u') (hu : LeafRep u) : LeafRep u' where
  dirty_cached := by
    rw [h.spentLeafDirty, h.spentLeafCache]
    exact hu.dirty_cached
  not_erased := by
    rw [h.spentLeafCache, h.erasedLeafDirty]
    exact hu.not_erased
  cached_stored := by
    rw [h.spentLeafDirty, h.spentLeafCache, h.leaves]
    exact hu.cached_stored

end Unflushed

namespace Flushed

variable {u u' : UTXOSet} {tip : Bytes32}

theorem coins_dirty (h : Flushed u tip u') {o : OutPoint} {entry : UTXOEntry}
    (hentry : u.cache.lookup o = some entry) (hd : entry.isDirty = true) :
    u'.db.coins.lookup o = entry.coin.live := by
  simp [h.coins, hentry, hd]

theorem coins_clean (h : Flushed u tip u') {o : OutPoint} {entry : UTXOEntry}
    (hentry : u.cache.lookup o = some entry) (hd : entry.isDirty = false) :
    u'.db.coins.lookup o = u.db.coins.lookup o := by
  simp [h.coins, hentry, hd]

theorem coins_not_cached (h : Flushed u tip u') {o : OutPoint} (ho : u.cache.lookup o = none) :
    u'.db.coins.lookup o = u.db.coins.lookup o := by
  simp [h.coins, ho]

theorem lookup_eq_none (h : Flushed u tip u') {o : OutPoint}
    (ho : ∀ entry, u.cache.lookup o = some entry → entry.coin.isSpent = true) :
    u'.cache.lookup o = none := by
  refine Option.eq_none_iff_forall_ne_some.mpr fun entry' hentry' => ?_
  obtain ⟨entry, hentry, hs, -⟩ := (h.cache o entry').mp hentry'
  rw [ho entry hentry] at hs
  cases hs

/-- **A completed flush shows the coins it showed before**, if no clean entry hides a stored
coin. -/
theorem getCoin_eq (h : Flushed u tip u')
    (hclean : ∀ o entry, u.cache.lookup o = some entry → entry.isDirty = false →
      entry.coin.isSpent = true → (u.db.coins.lookup o).bind Coin.live = none) :
    u'.getCoin = u.getCoin := by
  funext o
  cases hcache : u.cache.lookup o with
  | none =>
    have hcache' := h.lookup_eq_none (o := o) (by simp [hcache])
    rw [getCoin_of_not_cached hcache, getCoin_of_not_cached hcache', h.coins_not_cached hcache]
  | some entry =>
    rw [getCoin_of_cached hcache]
    cases hs : entry.coin.isSpent with
    | false =>
      rw [getCoin_of_cached ((h.cache o _).mpr ⟨entry, hcache, hs, rfl⟩)]
      rfl
    | true =>
      have hcache' := h.lookup_eq_none (o := o) fun e he => by
        rw [hcache, Option.some.injEq] at he
        rw [← he, hs]
      rw [getCoin_of_not_cached hcache', Coin.live_eq_none.mpr hs]
      cases hd : entry.isDirty with
      | true => rw [h.coins_dirty hcache hd, Coin.live_eq_none.mpr hs, Option.bind_none]
      | false =>
        rw [h.coins_clean hcache hd]
        exact hclean o entry hcache hd hs

/-- A leaf is stored after a completed flush exactly if it showed as spent before. -/
theorem mem_leaves (h : Flushed u tip u') (hu : LeafRep u) (key : NoiseLeafKey) :
    key ∈ u'.db.leaves ↔ u.isNoiseLeafSpent key = true := by
  have hdisj := fun hc : key ∈ u.spentLeafCache => Finset.disjoint_left.mp hu.not_erased hc
  have hdirty := fun hd : key ∈ u.spentLeafDirty => hu.dirty_cached hd
  have hstored := hu.cached_stored key
  rw [h.leaves, isNoiseLeafSpent_iff, Finset.mem_sdiff, Finset.mem_union]
  tauto

theorem isNoiseLeafSpent_eq (h : Flushed u tip u') (hu : LeafRep u) :
    u'.isNoiseLeafSpent = u.isNoiseLeafSpent := by
  funext key
  rw [Bool.eq_iff_iff, isNoiseLeafSpent_iff, h.mem_leaves hu, h.spentLeafCache, h.erasedLeafDirty,
    isNoiseLeafSpent_iff]
  simp only [Finset.notMem_empty, not_false_eq_true, true_and]
  tauto

theorem leafRep (h : Flushed u tip u') (hu : LeafRep u) : LeafRep u' where
  dirty_cached := by simp [h.spentLeafDirty]
  not_erased := by simp [h.erasedLeafDirty]
  cached_stored key hkey := by
    rw [h.spentLeafCache] at hkey
    exact .inr ((h.mem_leaves hu key).mpr ((isNoiseLeafSpent_iff u key).mpr (.inl hkey)))

theorem getCoin_eq_of_rep (h : Flushed u tip u') (hu : Rep u) : u'.getCoin = u.getCoin :=
  h.getCoin_eq fun o entry hentry hd hs => by
    rw [(hu.clean o entry hentry hd).1] at hs
    cases hs

/-- **After a completed flush the database alone shows the coins.** -/
theorem lookup_coins (h : Flushed u tip u') (hu : Rep u) (o : OutPoint) :
    u'.db.coins.lookup o = u.getCoin o := by
  cases hcache : u.cache.lookup o with
  | none =>
    rw [h.coins_not_cached hcache, getCoin_of_not_cached hcache]
    cases hdb : u.db.coins.lookup o with
    | none => rfl
    | some c => simp [Coin.live, hu.stored o c hdb]
  | some entry =>
    rw [getCoin_of_cached hcache]
    cases hd : entry.isDirty with
    | true => exact h.coins_dirty hcache hd
    | false =>
      obtain ⟨hs, hdb⟩ := hu.clean o entry hcache hd
      rw [h.coins_clean hcache hd, hdb, Coin.live, hs]
      rfl

theorem rep (h : Flushed u tip u') (hu : Rep u) : Rep u' where
  toLeafRep := h.leafRep hu.toLeafRep
  clean o entry' hentry' _ := by
    obtain ⟨entry, hentry, hs, rfl⟩ := (h.cache o entry').mp hentry'
    refine ⟨hs, ?_⟩
    rw [h.lookup_coins hu, getCoin_of_cached hentry]
    exact Coin.live_eq_some.mpr ⟨hs, rfl⟩
  stored o c hc := by
    rw [h.lookup_coins hu] at hc
    exact isSpent_of_getCoin hc

end Flushed

end UTXOSet

end Moneu
