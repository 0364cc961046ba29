/-
# A table over a table

The front table hides the back table: what is looked up is the row of the front table if it has one for the key,
and the row of the back table otherwise.  A row can say that the key has NO value.

A scan of the whole takes the rows of the front table, and then those rows of the back table whose key has no
row in front (`scan`).  It finds exactly what lookups find, each key once (`mem_scan`, `nodup_scan`), so that a
sum over the scan is the sum over all keys (`sum_scan`).
-/
import Mathlib.Algebra.BigOperators.Finprod
import Mathlib.Data.List.Nodup

namespace Moneu.Overlay

variable {κ α : Type}

def keys (rows : List (κ × Option α)) : List κ := rows.map Prod.fst

/-- What the two tables show: the value `a` at the key `k`. -/
def Shows (front back : List (κ × Option α)) (k : κ) (a : α) : Prop :=
  (k, some a) ∈ front ∨ k ∉ keys front ∧ (k, some a) ∈ back

/-- A row with a value that is asked for. -/
def pick (keep : α → Bool) (row : κ × Option α) : Option (κ × α) :=
  (row.2.filter keep).map fun a => (row.1, a)

/-- The rows of the back table that are not hidden. -/
def bare [DecidableEq κ] (front back : List (κ × Option α)) : List (κ × Option α) :=
  back.filter fun row => row.1 ∉ keys front

/-- The values that are asked for, in front and then behind. -/
def scan [DecidableEq κ] (keep : α → Bool) (front back : List (κ × Option α)) : List (κ × α) :=
  front.filterMap (pick keep) ++ (bare front back).filterMap (pick keep)

variable {keep : α → Bool} {front back : List (κ × Option α)}

theorem pick_eq_some {row : κ × Option α} {k : κ} {a : α} :
    pick keep row = some (k, a) ↔ row = (k, some a) ∧ keep a = true := by
  obtain ⟨k', v⟩ := row
  cases v with
  | none => simp [pick]
  | some b =>
    by_cases hb : keep b = true
    · simp only [pick, Option.filter_some, hb, if_true, Option.map_some, Option.some.injEq, Prod.mk.injEq]
      constructor
      · rintro ⟨rfl, rfl⟩
        exact ⟨⟨rfl, rfl⟩, hb⟩
      · rintro ⟨⟨rfl, rfl⟩, -⟩
        exact ⟨rfl, rfl⟩
    · simp only [pick, Option.filter_some, hb, Bool.false_eq_true, if_false, Option.map_none, reduceCtorEq,
        Prod.mk.injEq, Option.some.injEq, false_iff]
      rintro ⟨⟨-, rfl⟩, ha⟩
      exact hb ha

theorem map_fst_pick (rows : List (κ × Option α)) :
    ((rows.filterMap (pick keep)).map Prod.fst).Sublist (keys rows) := by
  induction rows with
  | nil => exact List.Sublist.refl _
  | cons row rows ih =>
    cases hpick : pick keep row with
    | none =>
      rw [List.filterMap_cons_none hpick]
      exact ih.cons row.1
    | some found =>
      obtain ⟨k, a⟩ := found
      obtain ⟨rfl, -⟩ := pick_eq_some.mp hpick
      rw [List.filterMap_cons_some hpick]
      exact ih.cons_cons k

section Scan

variable [DecidableEq κ]

theorem mem_scan {k : κ} {a : α} :
    (k, a) ∈ scan keep front back ↔ Shows front back k a ∧ keep a = true := by
  have hpicked : ∀ rows : List (κ × Option α),
      (k, a) ∈ rows.filterMap (pick keep) ↔ (k, some a) ∈ rows ∧ keep a = true := by
    intro rows
    rw [List.mem_filterMap]
    constructor
    · rintro ⟨row, hrow, hpick⟩
      obtain ⟨rfl, ha⟩ := pick_eq_some.mp hpick
      exact ⟨hrow, ha⟩
    · rintro ⟨hrow, ha⟩
      exact ⟨_, hrow, pick_eq_some.mpr ⟨rfl, ha⟩⟩
  have hbare : (k, some a) ∈ bare front back ↔ k ∉ keys front ∧ (k, some a) ∈ back := by
    rw [bare, List.mem_filter, decide_eq_true_eq, and_comm]
  rw [scan, List.mem_append, hpicked, hpicked, hbare, ← or_and_right]
  rfl

theorem nodup_scan (hfront : (keys front).Nodup) (hback : (keys back).Nodup) :
    ((scan keep front back).map Prod.fst).Nodup := by
  have hbare : (keys (bare front back)).Sublist (keys back) := List.filter_sublist.map Prod.fst
  rw [scan, List.map_append]
  refine (hfront.sublist (map_fst_pick front)).append ((hback.sublist hbare).sublist (map_fst_pick _)) ?_
  intro k hin hout
  obtain ⟨row, hrow, rfl⟩ := List.mem_map.mp ((map_fst_pick _).subset hout)
  have hnot := (List.mem_filter.mp hrow).2
  exact of_decide_eq_true hnot ((map_fst_pick front).subset hin)

/-- **The sum over a scan is the sum over all keys.** -/
theorem sum_scan (hfront : (keys front).Nodup) (hback : (keys back).Nodup) {find : κ → Option α}
    (hfind : ∀ k a, find k = some a ↔ Shows front back k a) (w : α → Int) :
    ((scan keep front back).map fun found => w found.2).sum =
      finsum fun k => ((find k).filter keep).elim 0 w := by
  have hnodup : ((scan keep front back).map Prod.fst).Nodup := nodup_scan hfront hback
  have hvalue : ∀ found ∈ scan keep front back, ((find found.1).filter keep).elim 0 w = w found.2 := by
    rintro ⟨k, a⟩ hmem
    obtain ⟨hshows, ha⟩ := mem_scan.mp hmem
    rw [(hfind k a).mpr hshows, Option.filter_some, if_pos ha]
    rfl
  have hsupport : (Function.support fun k => ((find k).filter keep).elim 0 w) ⊆
      ↑((scan keep front back).map Prod.fst).toFinset := by
    intro k hk
    cases hv : (find k).filter keep with
    | none =>
      rw [Function.mem_support, hv] at hk
      exact absurd rfl hk
    | some a =>
      obtain ⟨hsome, ha⟩ := Option.filter_eq_some_iff.mp hv
      have hmem : (k, a) ∈ scan keep front back := mem_scan.mpr ⟨(hfind k a).mp hsome, ha⟩
      simpa using ⟨a, hmem⟩
  rw [finsum_eq_sum_of_support_subset _ hsupport, List.sum_toFinset _ hnodup, List.map_map]
  exact congrArg List.sum (List.map_congr_left fun found hmem => (hvalue found hmem).symm)

end Scan

end Moneu.Overlay
