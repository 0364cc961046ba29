/-
# The highest spent leaf

`GetHighestSpentNoiseLeaf` merges the cached leaves with a scan of the database.  The scan reads its
keys with `GetKey<std::string>`, which refuses every key that is not as long as the string OBJECT:
32 bytes.  The keys of the database have 1, 18, 36 or 41 bytes, so the first key the iterator stands
on ends the scan, and the database is never looked at.

* `getHighestSpentNoiseLeaf_spec`: the call finds the highest CACHED leaf;
* `highestExact_iff`: after any sequence of operations, flushes and reopenings the answer is right if
  and only if no stored leaf lies above all cached ones;
* `forgotten_on_reopen`: a leaf is marked and the database reopened.  The leaf is spent, and the call
  finds none.
-/
import Moneu.Storage.FailedFlush

namespace Moneu.UTXOSet

/-! ## 1. The scan -/

theorem length_obfuscateKeyKey : OBFUSCATE_KEY_KEY.length = 14 := by decide +kernel

theorem length_ne_of_mem_keys {db : CoinsDB} {key : List UInt8} (h : key ∈ db.keys) :
    key.length ≠ DBIterator.SIZEOF_STRING := by
  simp only [CoinsDB.keys, Finset.mem_union, List.mem_toFinset, List.mem_map, Finset.mem_image,
    Finset.mem_singleton] at h
  rcases h with (((⟨o, _, rfl⟩ | ⟨leaf, _, rfl⟩) | ⟨_, _, rfl⟩) | ⟨_, _, rfl⟩) | rfl
  · simp [OutPoint.dbKey, DBIterator.SIZEOF_STRING]
  · simp [makeNoiseLeafDBKey, DBIterator.SIZEOF_STRING]
  · simp [DBIterator.SIZEOF_STRING]
  · simp [DBIterator.SIZEOF_STRING]
  · simp [length_obfuscateKeyKey, DBIterator.SIZEOF_STRING]

theorem scanLeaves_eq_nil {kps : Bytes32} {slKeys : List (List UInt8)}
    (h : ∀ key ∈ slKeys, key.length ≠ DBIterator.SIZEOF_STRING) : scanLeaves kps slKeys = [] := by
  cases slKeys with
  | nil => rfl
  | cons slKey rest =>
    have hnone : DBIterator.getKeyString slKey = none := if_pos (h slKey List.mem_cons_self)
    rw [scanLeaves, hnone]

variable {u : UTXOSet} {kps : Bytes32}

theorem mem_consideredLeaves (h : u.LeafRep) {i : UInt32} :
    i.toNat ∈ u.consideredLeaves kps ↔ ⟨kps, i⟩ ∈ u.spentLeafCache := by
  have hscan : scanLeaves kps (DBIterator.seek u.db.keys
      (DataStream.putString (makeNoiseLeafDBKey kps 0))) = [] :=
    scanLeaves_eq_nil fun key hkey => length_ne_of_mem_keys (DBIterator.mem_of_mem_seek hkey)
  simp only [consideredLeaves, hscan, List.toFinset_nil, Finset.union_empty, Finset.mem_image,
    Finset.mem_filter]
  constructor
  · rintro ⟨j, ⟨⟨⟨root, k⟩, ⟨hmem, hroot⟩, hk⟩, -⟩, hj⟩
    obtain rfl : root = kps := hroot
    obtain rfl : k = j := hk
    obtain rfl : k = i := UInt32.toNat_inj.mp hj
    exact hmem
  · intro hmem
    exact ⟨i, ⟨⟨⟨kps, i⟩, ⟨hmem, rfl⟩, rfl⟩, Finset.disjoint_left.mp h.not_erased hmem⟩, rfl⟩

/-- **`GetHighestSpentNoiseLeaf`** finds the highest cached leaf, or none is cached. -/
theorem getHighestSpentNoiseLeaf_spec (h : u.LeafRep) (kps : Bytes32) :
    match u.getHighestSpentNoiseLeaf kps with
    | none => ∀ i, ⟨kps, i⟩ ∉ u.spentLeafCache
    | some highest => ⟨kps, highest⟩ ∈ u.spentLeafCache ∧
        ∀ i, ⟨kps, i⟩ ∈ u.spentLeafCache → i ≤ highest := by
  unfold getHighestSpentNoiseLeaf
  split
  case h_1 hnone =>
    split at hnone
    case isTrue => cases hnone
    case isFalse hempty =>
      intro i hcached
      exact hempty ⟨i.toNat, (mem_consideredLeaves h).mpr hcached⟩
  case h_2 highest hsome =>
    split at hsome
    case isFalse => cases hsome
    case isTrue hne =>
      cases hsome
      have hmem := (u.consideredLeaves kps).max'_mem hne
      -- a considered number is the index of a key, so it fits into a word
      have hword : (UInt32.ofNat ((u.consideredLeaves kps).max' hne)).toNat =
          (u.consideredLeaves kps).max' hne := by
        obtain ⟨idx, _, hidx⟩ := Finset.mem_image.mp hmem
        rw [← hidx, UInt32.ofNat_toNat]
      constructor
      · rw [← mem_consideredLeaves h, hword]
        exact hmem
      · intro i hcached
        rw [UInt32.le_iff_toNat_le, hword]
        exact (u.consideredLeaves kps).le_max' _ ((mem_consideredLeaves h).mpr hcached)

theorem isNoiseLeafSpent_of_cached {key : NoiseLeafKey} (h : key ∈ u.spentLeafCache) :
    u.isNoiseLeafSpent key = true :=
  (u.isNoiseLeafSpent_iff key).mpr (.inl h)

/-! ## 2. Operations and reopenings -/

/-- What happens to the set of a node over several sessions. -/
inductive Event where
  | call (op : Op)
  /-- The destructor, whose flush may fail, and the constructor of the next session. -/
  | reopen (fail : Option Nat)
  /-- A kill, and the constructor of the next session. -/
  | kill

/-- One event. -/
def Event.apply (u : UTXOSet) : Event → UTXOSet
  | .call op => u.step op
  | .reopen fail => openDB (u.flush fail).1.db
  | .kill => openDB u.db

/-- Several sessions on a database. -/
def sessions (db : CoinsDB) (events : List Event) : UTXOSet := events.foldl Event.apply (openDB db)

theorem LeafRep.flush {u : UTXOSet} (h : u.LeafRep) (fail : Option Nat) :
    (u.flush fail).1.LeafRep := by
  rcases flushCache_cases u u.bestBlock fail with ⟨-, hflushed⟩ | ⟨-, hunflushed⟩
  · exact hflushed.leafRep h
  · exact hunflushed.leafRep h

theorem LeafRep.step {u : UTXOSet} (h : u.LeafRep) (op : Op) : (u.step op).LeafRep := by
  cases hop : op.isFlush with
  | false =>
    have hself : Beside u u := ⟨rfl, rfl, h⟩
    exact (hself.step hop).rep
  | true =>
    cases op with
    | flush fail => exact h.flush fail
    | _ => cases hop

theorem LeafRep.event {u : UTXOSet} (h : u.LeafRep) (event : Event) :
    (event.apply u).LeafRep := by
  cases event with
  | call op => exact h.step op
  | reopen fail => exact LeafRep.openDB _
  | kill => exact LeafRep.openDB _

/-- **The run lemma**: every state of every session keeps its leaves in order. -/
theorem leafRep_sessions (db : CoinsDB) (events : List Event) : (sessions db events).LeafRep := by
  unfold sessions
  generalize hstart : openDB db = start
  have hrep : start.LeafRep := hstart ▸ LeafRep.openDB db
  clear hstart
  induction events generalizing start with
  | nil => exact hrep
  | cons event events ih => exact ih (event.apply start) (hrep.event event)

/-! ## 3. When the answer is right -/

/-- `GetHighestSpentNoiseLeaf` answers with the largest spent leaf, and refuses if there is none. -/
def HighestExact (u : UTXOSet) (kps : Bytes32) : Prop :=
  (∀ m, u.getHighestSpentNoiseLeaf kps = some m ↔
    u.isNoiseLeafSpent ⟨kps, m⟩ = true ∧ ∀ i, u.isNoiseLeafSpent ⟨kps, i⟩ = true → i ≤ m) ∧
  (u.getHighestSpentNoiseLeaf kps = none ↔ ∀ i, u.isNoiseLeafSpent ⟨kps, i⟩ = false)

/-- A cached leaf of the key lies at or above this one. -/
def CachedAbove (u : UTXOSet) (kps : Bytes32) (i : UInt32) : Prop :=
  ∃ j, i ≤ j ∧ ⟨kps, j⟩ ∈ u.spentLeafCache

theorem highestExact_iff_of_leafRep (h : u.LeafRep) :
    u.HighestExact kps ↔ ∀ i, u.isNoiseLeafSpent ⟨kps, i⟩ = true → u.CachedAbove kps i := by
  have hspec := getHighestSpentNoiseLeaf_spec h kps
  unfold HighestExact
  cases hget : u.getHighestSpentNoiseLeaf kps with
  | none =>
    rw [hget] at hspec
    constructor
    · rintro ⟨-, hnone⟩ i hi
      rw [hnone.mp rfl i] at hi
      cases hi
    · intro hall
      have hfree : ∀ i, u.isNoiseLeafSpent ⟨kps, i⟩ = false := by
        intro i
        rw [Bool.eq_false_iff]
        intro hi
        obtain ⟨j, -, hj⟩ := hall i hi
        exact hspec j hj
      refine ⟨fun m => ⟨nofun, ?_⟩, fun _ => hfree, fun _ => rfl⟩
      rintro ⟨hm, -⟩
      rw [hfree m] at hm
      cases hm
  | some highest =>
    rw [hget] at hspec
    obtain ⟨hin, hmax⟩ := hspec
    have hspent := isNoiseLeafSpent_of_cached hin
    constructor
    · rintro ⟨hsome, -⟩ i hi
      exact ⟨highest, ((hsome highest).mp rfl).2 i hi, hin⟩
    · intro hall
      have hle : ∀ i, u.isNoiseLeafSpent ⟨kps, i⟩ = true → i ≤ highest := by
        intro i hi
        obtain ⟨j, hij, hj⟩ := hall i hi
        exact UInt32.le_trans hij (hmax j hj)
      refine ⟨fun m => ⟨?_, ?_⟩, nofun, ?_⟩
      · intro hm
        cases hm
        exact ⟨hspent, hle⟩
      · rintro ⟨hm, hmaxm⟩
        exact congrArg some (UInt32.le_antisymm (hmaxm highest hspent) (hle m hm))
      · intro hfree
        rw [hfree highest] at hspent
        cases hspent

/-- **When `GetHighestSpentNoiseLeaf` is exact.**  For every database, every sequence of operations,
flushes and reopenings and every key: the answer is exact if and only if every spent leaf of the key
has a cached leaf of the key at or above it. -/
theorem highestExact_iff (db : CoinsDB) (events : List Event) (kps : Bytes32) :
    (sessions db events).HighestExact kps ↔
      ∀ i, (sessions db events).isNoiseLeafSpent ⟨kps, i⟩ = true →
        (sessions db events).CachedAbove kps i :=
  highestExact_iff_of_leafRep (leafRep_sessions db events)

/-- **A spent leaf is forgotten.**  One leaf is marked and the database is closed and opened again.
The leaf is spent; the call finds nothing. -/
theorem forgotten_on_reopen :
    ¬ (sessions CoinsDB.empty [.call (.mark ⟨FixedBytes.zero, 0⟩), .reopen none]).HighestExact
      FixedBytes.zero := by
  rw [highestExact_iff_of_leafRep (leafRep_sessions _ _)]
  intro hall
  obtain ⟨j, -, hj⟩ := hall 0 (by decide)
  exact absurd hj (Finset.notMem_empty _)

end Moneu.UTXOSet
