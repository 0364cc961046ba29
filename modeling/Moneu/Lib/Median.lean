/-
# Medians

The element at position `k` of a sorted list is at least `m` if and only if at most `k` elements are below
`m` (`rel_iff_below_le`).  So a median can only go up when a list gets longer and no more of its elements are
below the old median (`rel_of_below_le`), whatever elements were exchanged for whatever others.
-/
import Mathlib.Data.List.Sort

namespace Moneu.Median

section

variable {α : Type} (r : α → α → Prop) [DecidableRel r]

def below (m : α) (l : List α) : ℕ := l.countP fun a => ¬ r m a

/-- The element `m` stands at position `l.length / 2` of the sorted list. -/
def IsUpper (l : List α) (m : α) : Prop := (l.insertionSort r)[l.length / 2]? = some m

variable {r}

theorem exists_isUpper {l : List α} (hne : l ≠ []) : ∃ m, IsUpper r l m := by
  have hpos := List.length_pos_iff.mpr hne
  have hlen : (l.insertionSort r).length = l.length := (List.perm_insertionSort r l).length_eq
  exact ⟨_, List.getElem?_eq_getElem (by omega)⟩

theorem IsUpper.mem {l : List α} {m : α} (h : IsUpper r l m) : m ∈ l :=
  (List.perm_insertionSort r l).mem_iff.mp (List.mem_of_getElem? h)

theorem below_sublist {m : α} {l l' : List α} (h : l.Sublist l') : below r m l ≤ below r m l' :=
  h.countP_le

theorem below_cons_of_rel {m a : α} (h : r m a) (l : List α) : below r m (a :: l) = below r m l :=
  List.countP_cons_of_neg (by simpa using h)

theorem below_cons_le (m a : α) (l : List α) : below r m (a :: l) ≤ below r m l + 1 := by
  unfold below
  rw [List.countP_cons]
  split
  · exact le_rfl
  · exact Nat.le_succ _

variable [Std.Total r] [IsTrans α r]

theorem rel_iff_below_le {l : List α} {k : ℕ} {a : α} (ha : (l.insertionSort r)[k]? = some a) (m : α) :
    r m a ↔ below r m l ≤ k := by
  have hcount : below r m l = below r m (l.insertionSort r) :=
    (List.perm_insertionSort r l).symm.countP_eq _
  have hsorted := List.pairwise_insertionSort r l
  obtain ⟨hk, hget⟩ := List.getElem?_eq_some_iff.mp ha
  have hsplit : l.insertionSort r = (l.insertionSort r).take k ++ a :: (l.insertionSort r).drop (k + 1) := by
    rw [← hget, List.getElem_cons_drop, List.take_append_drop]
  have hlen : ((l.insertionSort r).take k).length = k := by
    rw [List.length_take]
    omega
  rw [hsplit, List.pairwise_append] at hsorted
  obtain ⟨-, hright, hleft⟩ := hsorted
  have hsum : below r m l = below r m ((l.insertionSort r).take k) +
      below r m (a :: (l.insertionSort r).drop (k + 1)) := by
    rw [hcount]
    nth_rewrite 1 [hsplit]
    exact List.countP_append
  constructor
  · -- Nothing from position `k` on is below `m`.
    intro hma
    have hzero : below r m (a :: (l.insertionSort r).drop (k + 1)) = 0 := by
      refine List.countP_eq_zero.mpr fun x hx => ?_
      rcases List.mem_cons.mp hx with rfl | hx
      · simpa using hma
      · simpa using IsTrans.trans _ _ _ hma ((List.pairwise_cons.mp hright).1 x hx)
    have hle : below r m ((l.insertionSort r).take k) ≤ ((l.insertionSort r).take k).length :=
      List.countP_le_length
    omega
  · -- Otherwise everything up to position `k` is.
    intro hbelow
    by_contra hma
    have hall : below r m ((l.insertionSort r).take k) = k := by
      rw [below, List.countP_eq_length.mpr, hlen]
      intro x hx
      have hxa := hleft x hx a (List.mem_cons_self ..)
      simpa using fun hmx => hma (IsTrans.trans _ _ _ hmx hxa)
    have hone : 1 ≤ below r m (a :: (l.insertionSort r).drop (k + 1)) := by
      rw [below, List.countP_cons_of_pos (by simpa using hma)]
      exact Nat.le_add_left 1 _
    omega

/-- **A median does not go down** when the list gets no shorter and no more of it is below. -/
theorem rel_of_below_le {l l' : List α} {m m' : α} (hm : IsUpper r l m) (hm' : IsUpper r l' m')
    (hlen : l.length ≤ l'.length) (hbelow : below r m l' ≤ below r m l) : r m m' := by
  have hself : below r m l ≤ l.length / 2 := (rel_iff_below_le hm m).mp (refl_of r m)
  refine (rel_iff_below_le hm' m).mpr ?_
  have hhalf : l.length / 2 ≤ l'.length / 2 := Nat.div_le_div_right hlen
  omega

end

end Moneu.Median
