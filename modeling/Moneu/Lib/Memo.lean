/-
# Remembered answers

A pure function `f` is asked about queries, and a store remembers some of the answers under a fingerprint
`key` of the query.  The store is read as a partial function, so a table that forgets, for whatever reason, is
one below it.  `Sound` says that every remembered answer is the answer of some query that was asked; then the
store never shows, PROVIDED no two of the queries share a fingerprint (`Sound.answer`).
-/
import Mathlib.Data.Set.Function

namespace Moneu.Memo

variable {Q K V : Type} {f : Q → V} {key : Q → K} {asked : Set Q} {store store' : K → Option V}

/-- Every remembered answer is the answer of a query that was asked. -/
def Sound (f : Q → V) (key : Q → K) (asked : Set Q) (store : K → Option V) : Prop :=
  ∀ k v, store k = some v → ∃ q ∈ asked, key q = k ∧ f q = v

theorem Sound.empty (h : ∀ k, store k = none) : Sound f key asked store := by
  intro k v hk
  rw [h k] at hk
  cases hk

theorem Sound.remember (h : Sound f key asked store) {q : Q} (hq : q ∈ asked)
    (hput : ∀ k v, store' k = some v → key q = k ∧ f q = v ∨ store k = some v) :
    Sound f key asked store' := by
  intro k v hk
  rcases hput k v hk with hnew | hold
  · exact ⟨q, hq, hnew⟩
  · exact h k v hold

/-- **A remembered answer is the right one**, if the queries have fingerprints of their own. -/
theorem Sound.answer (h : Sound f key asked store) {q : Q} (hinj : Set.InjOn key (insert q asked)) {v : V}
    (hv : store (key q) = some v) : v = f q := by
  obtain ⟨q', hq', hkey, hanswer⟩ := h _ _ hv
  rw [← hinj (Set.mem_insert_of_mem _ hq') (Set.mem_insert _ _) hkey, hanswer]

end Moneu.Memo
