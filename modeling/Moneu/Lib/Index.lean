/-
# Secondary indexes

A table `m` holds records under their primary key.  A secondary index `ix` finds the primary key
of a record by other keys, which a function `keys` reads off the record.  `Mirrors keys m ix` says
that the index knows exactly the keys of the records in the table; then no two records share a key.

Both are association lists.  A record is entered and taken out together with its keys
(`Mirrors.insert`, `Mirrors.erase`), and a running total of some weight of the records moves by the
weight of that record (`total_insert`, `total_erase`).
-/
import Mathlib.Algebra.Ring.Nat
import Mathlib.Algebra.BigOperators.Group.List.Basic
import Mathlib.Data.List.AList

namespace Moneu.Index

/-! ## 1. Loops over one key each -/

section Loops

variable {α K V : Type} [DecidableEq K]

/-- What is found under `k` after insertions that give `k` no other value than `v`. -/
theorem lookup_foldl_insert (f : α → K) (g : α → V) {k : K} {v : V} :
    ∀ (items : List α) (t : AList fun _ : K => V), (∀ item ∈ items, f item = k → g item = v) →
      (items.foldl (fun t item => t.insert (f item) (g item)) t).lookup k =
        if k ∈ items.map f then some v else t.lookup k
  | [], t, _ => by simp
  | item :: items, t, h => by
    rw [List.foldl_cons, lookup_foldl_insert f g items _ fun i hi => h i (List.mem_cons_of_mem _ hi),
      List.map_cons]
    by_cases hk : f item = k
    · rw [h item (List.mem_cons_self ..) hk, hk, AList.lookup_insert]
      simp
    · have hk' : k ≠ f item := fun he => hk he.symm
      rw [AList.lookup_insert_ne hk']
      simp [hk']

theorem lookup_foldl_erase {k : K} : ∀ (ks : List K) (t : AList fun _ : K => V),
    (ks.foldl (fun t k => t.erase k) t).lookup k = if k ∈ ks then none else t.lookup k
  | [], t => by simp
  | k' :: ks, t => by
    rw [List.foldl_cons, lookup_foldl_erase ks]
    by_cases hk : k = k'
    · subst hk
      simp [AList.lookup_erase]
    · rw [AList.lookup_erase_ne hk]
      simp [hk]

theorem length_keys_erase {t : AList fun _ : K => V} {k : K} (hk : k ∈ t) :
    (t.erase k).keys.length + 1 = t.keys.length := by
  have hpos : 0 < t.keys.length := List.length_pos_of_mem hk
  rw [AList.keys_erase, List.length_erase_of_mem hk]
  omega

theorem erase_insert {t : AList fun _ : K => V} {k : K} {v : V} (hk : k ∉ t) :
    (t.insert k v).erase k = t := by
  apply AList.ext
  have hentries : (t.insert k v).entries = ⟨k, v⟩ :: t.entries := AList.entries_insert_of_notMem hk
  change List.kerase k (t.insert k v).entries = t.entries
  rw [hentries]
  exact List.kerase_cons_eq rfl

end Loops

/-! ## 2. An index and its table -/

section Mirrors

variable {H E K : Type} [DecidableEq H] [DecidableEq K]

/-- The index holds the keys of the records of the table, and nothing else. -/
def Mirrors (keys : E → List K) (m : AList fun _ : H => E) (ix : AList fun _ : K => H) : Prop :=
  ∀ k h, ix.lookup k = some h ↔ ∃ e, m.lookup h = some e ∧ k ∈ keys e

variable {keys : E → List K} {m : AList fun _ : H => E} {ix : AList fun _ : K => H} {h : H} {e : E}

theorem Mirrors.empty : Mirrors keys (∅ : AList fun _ : H => E) ∅ := by
  intro k h
  simp

theorem Mirrors.lookup_eq (hix : Mirrors keys m ix) {k : K} (hm : m.lookup h = some e)
    (hk : k ∈ keys e) : ix.lookup k = some h :=
  (hix k h).mpr ⟨e, hm, hk⟩

/-- **Two records with a common key are one record.** -/
theorem Mirrors.unique (hix : Mirrors keys m ix) {h' : H} {e' : E} {k : K}
    (hm : m.lookup h = some e) (hm' : m.lookup h' = some e') (hk : k ∈ keys e) (hk' : k ∈ keys e') :
    h = h' :=
  Option.some.inj ((hix.lookup_eq hm hk).symm.trans (hix.lookup_eq hm' hk'))

theorem Mirrors.not_mem_keys (hix : Mirrors keys m ix) {k : K} (hk : k ∉ ix)
    (hm : m.lookup h = some e) : k ∉ keys e := by
  intro hmem
  have hfound := hix.lookup_eq hm hmem
  exact hk (AList.lookup_isSome.mp (by rw [hfound]; rfl))

theorem Mirrors.erase (hix : Mirrors keys m ix) (hm : m.lookup h = some e) :
    Mirrors keys (m.erase h) ((keys e).foldl (fun t k => t.erase k) ix) := by
  intro k h'
  rw [lookup_foldl_erase]
  by_cases hh : h' = h
  · subst hh
    simp only [AList.lookup_erase, reduceCtorEq, false_and, exists_false, iff_false]
    intro hfound
    split at hfound
    case isTrue => exact absurd hfound (by simp)
    case isFalse hk =>
      obtain ⟨e', he', hk'⟩ := (hix k h').mp hfound
      rw [hm] at he'
      cases he'
      exact hk hk'
  · rw [AList.lookup_erase_ne hh]
    split
    case isTrue hk =>
      simp only [reduceCtorEq, false_iff, not_exists, not_and]
      intro e' he' hk'
      exact hh (hix.unique he' hm hk' hk)
    case isFalse => exact hix k h'

/-- **A record is entered with its keys**, which must be new. -/
theorem Mirrors.insert (hix : Mirrors keys m ix) (hnew : h ∉ m) (hfresh : ∀ k ∈ keys e, k ∉ ix) :
    Mirrors keys (m.insert h e) ((keys e).foldl (fun t k => t.insert k h) ix) := by
  intro k h'
  have hlookup : ((keys e).foldl (fun t k => t.insert k h) ix).lookup k =
      if k ∈ (keys e).map id then some h else ix.lookup k :=
    lookup_foldl_insert id (fun _ => h) (keys e) ix fun _ _ _ => rfl
  rw [hlookup, List.map_id]
  by_cases hh : h' = h
  · subst hh
    rw [AList.lookup_insert]
    split
    case isTrue hk => simp [hk]
    case isFalse hk =>
      constructor
      · intro hfound
        obtain ⟨e', he', -⟩ := (hix k h').mp hfound
        exact absurd (AList.lookup_isSome.mp (by rw [he']; rfl)) hnew
      · rintro ⟨e', he', hk'⟩
        cases he'
        exact absurd hk' hk
  · rw [AList.lookup_insert_ne hh]
    split
    case isTrue hk =>
      constructor
      · intro hfound
        exact absurd (Option.some.inj hfound).symm hh
      · rintro ⟨e', he', hk'⟩
        exact absurd hk' (hix.not_mem_keys (hfresh k hk) he')
    case isFalse => exact hix k h'

end Mirrors

/-! ## 3. A running total -/

section Total

variable {H E : Type} [DecidableEq H] {m : AList fun _ : H => E} {h : H} {e : E}

/-- The weight of all records. -/
def total (w : E → ℕ) (m : AList fun _ : H => E) : ℕ := (m.entries.map fun slot => w slot.2).sum

theorem total_insert (w : E → ℕ) (hnew : h ∉ m) : total w (m.insert h e) = w e + total w m := by
  rw [total, total, AList.entries_insert_of_notMem hnew, List.map_cons, List.sum_cons]

theorem entries_split (hm : m.lookup h = some e) : ∃ before after,
    m.entries = before ++ ⟨h, e⟩ :: after ∧ (m.erase h).entries = before ++ after := by
  have hmem : h ∈ m.entries.keys := AList.lookup_isSome.mp (by rw [hm]; rfl)
  obtain ⟨e', before, after, -, hsplit, herase⟩ := List.exists_of_kerase hmem
  have hin : (⟨h, e'⟩ : Sigma fun _ : H => E) ∈ m.entries := by rw [hsplit]; simp
  have he := (AList.mem_lookup_iff.mpr hin).symm.trans hm
  cases he
  exact ⟨before, after, hsplit, herase⟩

theorem total_erase (w : E → ℕ) (hm : m.lookup h = some e) :
    total w m = w e + total w (m.erase h) := by
  obtain ⟨before, after, hsplit, hrest⟩ := entries_split hm
  rw [total, total, hrest, hsplit]
  simp only [List.map_append, List.map_cons, List.sum_append, List.sum_cons]
  omega

end Total

end Moneu.Index
