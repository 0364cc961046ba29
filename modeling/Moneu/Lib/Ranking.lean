/-
# Two ways to break ties

A list is ranked by `a`, highest first.  Among equals, one ranking puts the least `b` first (`Up`), the other
the greatest (`Down`).  The two agree on their first `n` places IF AND ONLY IF no tie begins before place `n`
(`take_eq_take_iff`): a tie that begins at place `c` is opened by its least member in the one ranking and by
its greatest in the other.
-/
import Mathlib.Data.List.Perm.Basic
import Mathlib.Order.Lattice

namespace Moneu.Ranking

variable {α A B : Type} [LinearOrder A] [LinearOrder B] {a : α → A} {b : α → B}

/-- Higher rank, or an equal one and not after in `b`. -/
def Up (a : α → A) (b : α → B) (x y : α) : Prop := a y < a x ∨ a x = a y ∧ b x ≤ b y

/-- Higher rank, or an equal one and not before in `b`. -/
def Down (a : α → A) (b : α → B) (x y : α) : Prop := a y < a x ∨ a x = a y ∧ b y ≤ b x

instance (x y : α) : Decidable (Up a b x y) := inferInstanceAs (Decidable (_ ∨ _))

instance (x y : α) : Decidable (Down a b x y) := inferInstanceAs (Decidable (_ ∨ _))

instance : Std.Total (Up a b) where
  total x y := by
    rcases lt_trichotomy (a x) (a y) with h | h | h
    · exact .inr (.inl h)
    · exact (le_total (b x) (b y)).imp (fun hb => .inr ⟨h, hb⟩) fun hb => .inr ⟨h.symm, hb⟩
    · exact .inl (.inl h)

instance : IsTrans α (Up a b) where
  trans x y z := by
    rintro (hxy | ⟨hxy, hb⟩) (hyz | ⟨hyz, hb'⟩)
    · exact .inl (hyz.trans hxy)
    · exact .inl (hyz ▸ hxy)
    · exact .inl (hxy ▸ hyz)
    · exact .inr ⟨hxy.trans hyz, hb.trans hb'⟩

theorem Up.le {x y : α} (h : Up a b x y) : a y ≤ a x := by
  rcases h with h | h
  · exact h.le
  · exact h.1.ge

theorem Down.le {x y : α} (h : Down a b x y) : a y ≤ a x := by
  rcases h with h | h
  · exact h.le
  · exact h.1.ge

/-- **Whoever ranks above `v` comes first**, and their number says where they end. -/
theorem lt_iff_place {l : List α} (h : l.Pairwise fun x y => a y ≤ a x) {v : A} {k : Nat} {x : α}
    (hx : l[k]? = some x) : v < a x ↔ k < l.countP fun z => decide (v < a z) := by
  induction l generalizing k with
  | nil => simp at hx
  | cons y l ih =>
    obtain ⟨hy, hl⟩ := List.pairwise_cons.mp h
    rw [List.countP_cons]
    by_cases hv : v < a y
    · rw [decide_eq_true hv, if_pos rfl]
      cases k with
      | zero =>
        cases hx
        simp [hv]
      | succ k =>
        rw [ih hl hx]
        omega
    · -- Nobody after `y` ranks above `v` either.
      have hnone : l.countP (fun z => decide (v < a z)) = 0 := by
        rw [List.countP_eq_zero]
        intro z hz hlt
        exact hv ((of_decide_eq_true hlt).trans_le (hy z hz))
      have hle : a x ≤ a y := by
        cases k with
        | zero => cases hx; exact le_rfl
        | succ k => exact hy x (List.mem_of_getElem? hx)
      rw [hnone, decide_eq_false hv]
      simp [(not_lt.mp hv).trans' hle]

theorem opens {R : α → α → Prop} {l : List α} (h : l.Pairwise R) (hle : ∀ {x y}, R x y → a y ≤ a x)
    {x : α} (hx : x ∈ l) :
    ∃ y, l[l.countP fun z => decide (a x < a z)]? = some y ∧ ¬ a x < a y ∧ (y = x ∨ R y x) := by
  have hrank : l.Pairwise fun x y => a y ≤ a x := h.imp hle
  obtain ⟨i, hi, hget⟩ := List.getElem_of_mem hx
  have hplace := (lt_iff_place hrank (v := a x) (List.getElem?_eq_some_iff.mpr ⟨hi, hget⟩)).not.mp
    (lt_irrefl _)
  have hlt : (l.countP fun z => decide (a x < a z)) < l.length := by omega
  have hopen := List.getElem?_eq_getElem hlt
  refine ⟨_, hopen, fun habove => ?_, ?_⟩
  · exact Nat.lt_irrefl _ ((lt_iff_place hrank hopen).mp habove)
  · rcases Nat.eq_or_lt_of_le (Nat.not_lt.mp hplace) with heq | hbefore
    · left
      subst heq
      exact hget
    · have hafter := List.pairwise_iff_getElem.mp h _ _ hlt hi hbefore
      rw [hget] at hafter
      exact .inr hafter

/-- **The two rankings agree on their first `n` places exactly if no tie begins there.** -/
theorem take_eq_take_iff {l l' : List α} (hperm : l.Perm l') (hup : l.Pairwise (Up a b))
    (hdown : l'.Pairwise (Down a b)) (hinj : ∀ x ∈ l, ∀ y ∈ l, a x = a y → b x = b y → x = y) (n : Nat) :
    l.take n = l'.take n ↔
      ∀ x ∈ l, ∀ y ∈ l, x ≠ y → a x = a y → n ≤ l.countP fun z => decide (a x < a z) := by
  have hrank : l.Pairwise fun x y => a y ≤ a x := hup.imp Up.le
  have hrank' : l'.Pairwise fun x y => a y ≤ a x := hdown.imp Down.le
  constructor
  · intro heq x hx y hy hne hab
    by_contra hbefore
    rw [Nat.not_le] at hbefore
    -- The openers of the tie are the same member, and both `x` and `y` have its `b`.
    have hsame : ∀ z ∈ l, a z = a x → ∃ w, l[l.countP fun z => decide (a x < a z)]? = some w ∧
        b w = b z := by
      intro z hz haz
      obtain ⟨w, hw, hle, hfirst⟩ := opens hup Up.le hz
      obtain ⟨w', hw', -, hfirst'⟩ := opens hdown Down.le (hperm.mem_iff.mp hz)
      rw [haz] at hw hle hw'
      rw [← hperm.countP_eq] at hw'
      have hww : w = w' := by
        have htake := congrArg (·[l.countP fun z => decide (a x < a z)]?) heq
        simp only [List.getElem?_take, if_pos hbefore, hw, hw'] at htake
        exact Option.some.inj htake
      subst hww
      refine ⟨w, hw, ?_⟩
      rcases hfirst with rfl | hup' | hup'
      · rfl
      · exact absurd (haz ▸ hup') hle
      · rcases hfirst' with rfl | hdown' | hdown'
        · rfl
        · exact absurd (haz ▸ hdown') hle
        · exact le_antisymm hup'.2 hdown'.2
    obtain ⟨w, hw, hbx⟩ := hsame x hx rfl
    obtain ⟨w', hw', hby⟩ := hsame y hy hab.symm
    cases hw.symm.trans hw'
    exact hne (hinj x hx y hy hab (hbx.symm.trans hby))
  · intro hties
    have hranks : l.map a = l'.map a := by
      refine @List.Perm.eq_of_pairwise A (fun x y => y ≤ x) _ _ ?_ ?_ ?_ (hperm.map a)
      · intro x y _ _ h h'
        exact le_antisymm h' h
      · exact List.pairwise_map.mpr hrank
      · exact List.pairwise_map.mpr hrank'
    refine List.ext_getElem? fun k => ?_
    rw [List.getElem?_take, List.getElem?_take]
    by_cases hk : k < n
    · rw [if_pos hk, if_pos hk]
      have hak := congrArg (·[k]?) hranks
      simp only [List.getElem?_map] at hak
      cases hx : l[k]? with
      | none =>
        rw [hx] at hak
        cases hy : l'[k]? with
        | none => rfl
        | some y => rw [hy] at hak; cases hak
      | some x =>
        rw [hx] at hak
        cases hy : l'[k]? with
        | none => rw [hy] at hak; cases hak
        | some y =>
          rw [hy] at hak
          have haxy : a x = a y := Option.some.inj hak
          by_contra hne
          have hmem := hties x (List.mem_of_getElem? hx) y (hperm.mem_iff.mpr (List.mem_of_getElem? hy))
            (fun hxy => hne (congrArg some hxy)) haxy
          have hplace := (lt_iff_place hrank (v := a x) hx).not.mp (lt_irrefl _)
          omega
    · rw [if_neg hk, if_neg hk]

end Moneu.Ranking
