/-
# Custody of keys

A table says for some keys that they are HELD, and under which id.  Claimants come and go; a claim is a
set of keys and the id they should be held under.  A claimant that is about to give up is not trusted
with anything any more, but its keys may still be in the table: such keys are LOOSE.

`Custody held claims loose` says that the table is right: the keys of a claim are held under its id, a
key that is held belongs to a claim under its id or is loose, and no key is claimed twice.  Each rule
below is one thing that can happen to the table and to the claims.  A table that is edited BY ID needs to
know that no other claim with keys goes by that id (`release`, `rename`); a table that is edited BY KEY
needs to know that nobody else claims the keys (`drop`).
-/
import Mathlib.Logic.Basic

namespace Moneu

variable {K I C : Type}

/-- Keys, and the id they are to be held under. -/
structure Claim (K I : Type) where
  keys : List K
  id : I

/-- **The table is right.** -/
structure Custody (held : K → Option I) (claims : C → Option (Claim K I)) (loose : K → Prop) :
    Prop where
  backed : ∀ c cl, claims c = some cl → ∀ k ∈ cl.keys, held k = some cl.id
  owned : ∀ k i, held k = some i → (∃ c cl, claims c = some cl ∧ cl.id = i ∧ k ∈ cl.keys) ∨ loose k
  apart : ∀ c d cl dl, claims c = some cl → claims d = some dl → c ≠ d → ∀ k ∈ cl.keys, k ∉ dl.keys

namespace Custody

variable {held held' : K → Option I} {claims claims' : C → Option (Claim K I)}
  {loose loose' : K → Prop}

theorem empty (hheld : ∀ k, held k = none) (hclaims : ∀ c, claims c = none) :
    Custody held claims loose where
  backed c cl hc := by
    rw [hclaims] at hc
    cases hc
  owned k i hk := by
    rw [hheld] at hk
    cases hk
  apart c d cl dl hc := by
    rw [hclaims] at hc
    cases hc

theorem mono (h : Custody held claims loose) (hheld : ∀ k, held' k = held k)
    (hclaims : ∀ c, claims' c = claims c) (hloose : ∀ k, loose k → loose' k) :
    Custody held' claims' loose' where
  backed c cl hc k hk := by
    rw [hheld]
    exact h.backed c cl ((hclaims c).symm.trans hc) k hk
  owned k i hk := by
    rw [hheld] at hk
    refine (h.owned k i hk).imp ?_ (hloose k)
    rintro ⟨c, cl, hc, hid, hmem⟩
    exact ⟨c, cl, (hclaims c).trans hc, hid, hmem⟩
  apart c d cl dl hc hd := h.apart c d cl dl ((hclaims c).symm.trans hc) ((hclaims d).symm.trans hd)

/-- Claims that go by one id and whose keys are among those of `c` have no keys, but for `c`. -/
theorem keys_nil (h : Custody held claims loose) {c d : C} {cl dl : Claim K I} (hc : claims c = some cl)
    (hd : claims d = some dl) (hne : d ≠ c) (hsub : ∀ k ∈ dl.keys, k ∈ cl.keys) {k : K} :
    k ∉ dl.keys :=
  fun hk => h.apart d c dl cl hd hc hne k hk (hsub k hk)

section Rules

variable [DecidableEq C] {c : C}

theorem take [DecidableEq K] (h : Custody held claims loose) (cl : Claim K I)
    (hfree : ∀ k ∈ cl.keys, held k = none)
    (hheld : ∀ k, held' k = if k ∈ cl.keys then some cl.id else held k) (hnew : claims c = none)
    (hclaims : ∀ d, claims' d = if d = c then some cl else claims d)
    (hloose : ∀ k, loose k → loose' k) : Custody held' claims' loose' := by
  have hother : ∀ d dl, claims d = some dl → ∀ k ∈ dl.keys, k ∉ cl.keys := by
    intro d dl hd k hk hmem
    have hsome := h.backed d dl hd k hk
    rw [hfree k hmem] at hsome
    cases hsome
  refine ⟨?_, ?_, ?_⟩
  · intro d dl hd k hk
    rw [hclaims] at hd
    split at hd
    case isTrue =>
      cases hd
      rw [hheld, if_pos hk]
    case isFalse =>
      rw [hheld, if_neg (hother d dl hd k hk)]
      exact h.backed d dl hd k hk
  · intro k i hk
    rw [hheld] at hk
    split at hk
    case isTrue hmem =>
      cases hk
      exact .inl ⟨c, cl, by rw [hclaims, if_pos rfl], rfl, hmem⟩
    case isFalse =>
      refine (h.owned k i hk).imp ?_ (hloose k)
      rintro ⟨d, dl, hd, hid, hmem⟩
      have hne : d ≠ c := by
        rintro rfl
        rw [hnew] at hd
        cases hd
      exact ⟨d, dl, by rw [hclaims, if_neg hne, hd], hid, hmem⟩
  · intro d e dl el hd he hne k hk hk'
    rw [hclaims] at hd he
    split at hd <;> split at he
    · exact hne (by simp_all)
    · cases hd
      exact hother e el he k hk' hk
    · cases he
      exact hother d dl hd k hk hk'
    · exact h.apart d e dl el hd he hne k hk hk'

variable {cl : Claim K I}

theorem release [DecidableEq I] (h : Custody held claims loose) (hc : claims c = some cl)
    (hone : ∀ d dl, claims d = some dl → dl.id = cl.id → ∀ k ∈ dl.keys, k ∈ cl.keys)
    (hheld : ∀ k, held' k = if held k = some cl.id then none else held k)
    (hclaims : ∀ d, claims' d = if d = c then none else claims d)
    (hloose : ∀ k, loose k → loose' k) : Custody held' claims' loose' := by
  have hback : ∀ d dl, claims' d = some dl → d ≠ c ∧ claims d = some dl := by
    intro d dl hd
    rw [hclaims] at hd
    split at hd
    case isTrue => cases hd
    case isFalse hne => exact ⟨hne, hd⟩
  refine ⟨?_, ?_, ?_⟩
  · intro d dl hd k hk
    obtain ⟨hne, hd⟩ := hback d dl hd
    have hk' := h.backed d dl hd k hk
    rw [hheld, if_neg]
    · exact hk'
    · intro hid
      rw [hk', Option.some.injEq] at hid
      exact h.keys_nil hc hd hne (hone d dl hd hid) hk
  · intro k i hk
    rw [hheld] at hk
    split at hk
    case isTrue => cases hk
    case isFalse hid =>
      refine (h.owned k i hk).imp ?_ (hloose k)
      rintro ⟨d, dl, hd, hdid, hmem⟩
      refine ⟨d, dl, ?_, hdid, hmem⟩
      rw [hclaims, if_neg]
      · exact hd
      · rintro rfl
        rw [hc, Option.some.injEq] at hd
        rw [hd, hdid] at hid
        exact hid hk
  · intro d e dl el hd he
    exact h.apart d e dl el (hback d dl hd).2 (hback e el he).2

/-- **A claim goes by another id**, and so do the keys held under the old one. -/
theorem rename [DecidableEq I] (h : Custody held claims loose) (hc : claims c = some cl)
    (hone : ∀ d dl, claims d = some dl → dl.id = cl.id → ∀ k ∈ dl.keys, k ∈ cl.keys) {i' : I}
    (hheld : ∀ k, held' k = if held k = some cl.id then some i' else held k)
    (hclaims : ∀ d, claims' d = if d = c then some ⟨cl.keys, i'⟩ else claims d)
    (hloose : ∀ k, loose k → loose' k) : Custody held' claims' loose' := by
  refine ⟨?_, ?_, ?_⟩
  · intro d dl hd k hk
    rw [hclaims] at hd
    split at hd
    case isTrue =>
      cases hd
      rw [hheld, if_pos (h.backed c cl hc k hk)]
    case isFalse hne =>
      have hk' := h.backed d dl hd k hk
      rw [hheld, if_neg]
      · exact hk'
      · intro hid
        rw [hk', Option.some.injEq] at hid
        exact h.keys_nil hc hd hne (hone d dl hd hid) hk
  · intro k i hk
    rw [hheld] at hk
    split at hk
    case isTrue hid =>
      cases hk
      -- whoever claimed the key under the old id, `c` claims it
      refine (h.owned k cl.id hid).imp ?_ (hloose k)
      rintro ⟨d, dl, hd, hdid, hmem⟩
      exact ⟨c, ⟨cl.keys, i'⟩, by rw [hclaims, if_pos rfl], rfl, hone d dl hd hdid k hmem⟩
    case isFalse hid =>
      refine (h.owned k i hk).imp ?_ (hloose k)
      rintro ⟨d, dl, hd, hdid, hmem⟩
      refine ⟨d, dl, ?_, hdid, hmem⟩
      rw [hclaims, if_neg]
      · exact hd
      · rintro rfl
        rw [hc, Option.some.injEq] at hd
        rw [hd, hdid] at hid
        exact hid hk
  · have hkeys : ∀ d dl, claims' d = some dl → ∃ dl', claims d = some dl' ∧ dl'.keys = dl.keys := by
      intro d dl hd
      rw [hclaims] at hd
      split at hd
      case isTrue heq =>
        cases hd
        exact ⟨cl, heq ▸ hc, rfl⟩
      case isFalse => exact ⟨dl, hd, rfl⟩
    intro d e dl el hd he hne
    obtain ⟨dl', hd', hdk⟩ := hkeys d dl hd
    obtain ⟨el', he', hek⟩ := hkeys e el he
    rw [← hdk, ← hek]
    exact h.apart d e dl' el' hd' he' hne

/-- **A claimant is about to give up**: its keys are loose. -/
theorem loosen (h : Custody held claims loose) (hc : claims c = some cl)
    (hheld : ∀ k, held' k = held k) (hclaims : ∀ d, claims' d = if d = c then none else claims d)
    (hloose : ∀ k, loose k ∨ k ∈ cl.keys → loose' k) : Custody held' claims' loose' := by
  have hback : ∀ d dl, claims' d = some dl → claims d = some dl := by
    intro d dl hd
    rw [hclaims] at hd
    split at hd
    case isTrue => cases hd
    case isFalse => exact hd
  refine ⟨?_, ?_, ?_⟩
  · intro d dl hd k hk
    rw [hheld]
    exact h.backed d dl (hback d dl hd) k hk
  · intro k i hk
    rw [hheld] at hk
    rcases h.owned k i hk with ⟨d, dl, hd, hid, hmem⟩ | hl
    · by_cases heq : d = c
      · subst heq
        rw [hc, Option.some.injEq] at hd
        subst hd
        exact .inr (hloose k (.inr hmem))
      · exact .inl ⟨d, dl, by rw [hclaims, if_neg heq, hd], hid, hmem⟩
    · exact .inr (hloose k (.inl hl))
  · intro d e dl el hd he
    exact h.apart d e dl el (hback d dl hd) (hback e el he)

theorem pass (h : Custody held claims loose) (hc : claims c = some cl) (c' : C) (hne : c' ≠ c)
    (hone : ∀ dl, claims c' = some dl → dl.id = cl.id ∧ ∀ k ∈ dl.keys, k ∈ cl.keys)
    (hheld : ∀ k, held' k = held k)
    (hclaims : ∀ d, claims' d = if d = c then none else if d = c' then some cl else claims d)
    (hloose : ∀ k, loose k → loose' k) : Custody held' claims' loose' := by
  have hback : ∀ d dl, claims' d = some dl → d = c' ∧ dl = cl ∨ d ≠ c ∧ d ≠ c' ∧ claims d = some dl := by
    intro d dl hd
    rw [hclaims] at hd
    split at hd
    case isTrue => cases hd
    case isFalse hdc =>
      split at hd
      case isTrue heq => exact .inl ⟨heq, (Option.some.inj hd).symm⟩
      case isFalse hdc' => exact .inr ⟨hdc, hdc', hd⟩
  have hnow : claims' c' = some cl := by rw [hclaims, if_neg hne, if_pos rfl]
  refine ⟨?_, ?_, ?_⟩
  · intro d dl hd k hk
    rw [hheld]
    rcases hback d dl hd with ⟨-, rfl⟩ | ⟨-, -, hd⟩
    · exact h.backed c dl hc k hk
    · exact h.backed d dl hd k hk
  · intro k i hk
    rw [hheld] at hk
    refine (h.owned k i hk).imp ?_ (hloose k)
    rintro ⟨d, dl, hd, hid, hmem⟩
    by_cases hdc : d = c
    · subst hdc
      rw [hc, Option.some.injEq] at hd
      exact ⟨c', cl, hnow, by rw [hd, hid], hd ▸ hmem⟩
    · by_cases hdc' : d = c'
      · subst hdc'
        obtain ⟨hsame, hsub⟩ := hone dl hd
        exact ⟨d, cl, hnow, by rw [← hsame, hid], hsub k hmem⟩
      · exact ⟨d, dl, by rw [hclaims, if_neg hdc, if_neg hdc', hd], hid, hmem⟩
  · intro d e dl el hd he hde
    rcases hback d dl hd with ⟨rfl, rfl⟩ | ⟨hdc, -, hd⟩ <;>
      rcases hback e el he with ⟨rfl, rfl⟩ | ⟨hec, -, he⟩
    · exact absurd rfl hde
    · exact h.apart c e dl el hc he (Ne.symm hec)
    · exact h.apart d c dl el hd hc hdc
    · exact h.apart d e dl el hd he hde

end Rules

theorem drop [DecidableEq K] (h : Custody held claims loose) (ks : List K)
    (hclear : ∀ c cl, claims c = some cl → ∀ k ∈ cl.keys, k ∉ ks)
    (hheld : ∀ k, held' k = if k ∈ ks then none else held k) (hclaims : ∀ c, claims' c = claims c)
    (hloose : ∀ k, loose k → k ∉ ks → loose' k) : Custody held' claims' loose' where
  backed c cl hc k hk := by
    rw [hclaims] at hc
    rw [hheld, if_neg (hclear c cl hc k hk)]
    exact h.backed c cl hc k hk
  owned k i hk := by
    rw [hheld] at hk
    split at hk
    case isTrue => cases hk
    case isFalse hmem =>
      refine (h.owned k i hk).imp ?_ fun hl => hloose k hl hmem
      rintro ⟨c, cl, hc, hid, hk'⟩
      exact ⟨c, cl, (hclaims c).trans hc, hid, hk'⟩
  apart c d cl dl hc hd := h.apart c d cl dl ((hclaims c).symm.trans hc) ((hclaims d).symm.trans hd)

/-- **Some ids are struck out**, and the claims that go by them end. -/
theorem strike [DecidableEq I] (h : Custody held claims loose) (ids : List I)
    (hheld : ∀ k, held' k = if ∃ i ∈ ids, held k = some i then none else held k)
    (hstay : ∀ c cl, claims c = some cl → cl.id ∉ ids → claims' c = some cl)
    (hend : ∀ c cl, claims' c = some cl → claims c = some cl ∧ cl.id ∉ ids)
    (hloose : ∀ k, loose k → loose' k) : Custody held' claims' loose' where
  backed c cl hc k hk := by
    obtain ⟨hc, hid⟩ := hend c cl hc
    have hk' := h.backed c cl hc k hk
    rw [hheld, if_neg]
    · exact hk'
    · rintro ⟨i, hi, heq⟩
      rw [hk', Option.some.injEq] at heq
      exact hid (heq ▸ hi)
  owned k i hk := by
    rw [hheld] at hk
    split at hk
    case isTrue => cases hk
    case isFalse hnot =>
      refine (h.owned k i hk).imp ?_ (hloose k)
      rintro ⟨c, cl, hc, hid, hmem⟩
      exact ⟨c, cl, hstay c cl hc fun hin => hnot ⟨cl.id, hin, hid ▸ hk⟩, hid, hmem⟩
  apart c d cl dl hc hd := h.apart c d cl dl (hend c cl hc).1 (hend d dl hd).1

end Custody

end Moneu
