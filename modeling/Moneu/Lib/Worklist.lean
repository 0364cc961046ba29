/-
# A work list

A queue that is read from the front and grows at the back: the keys a key leads to are appended,
unless the queue holds them already.  When the reading position has passed the last element the
queue holds exactly what can be reached from its first elements, each key once (`mem_explore`,
`nodup_explore`).

The loop has no bound of its own.  It reads a new position in every turn and the queue holds no
key twice, so it ends as soon as everything it can reach lies in a finite list.
-/
import Mathlib.Data.List.Nodup
import Mathlib.Data.List.Perm.Subperm
import Mathlib.Data.Set.Card
import Mathlib.Logic.Relation

namespace Moneu.Worklist

variable {K : Type} [DecidableEq K]

/-! ## 1. The loop -/

/-- Append a key the queue does not hold yet. -/
def push (queue : List K) (k : K) : List K := if k ∈ queue then queue else queue ++ [k]

/-- `for (head = …; head < queue.size(); ++head)` with the successors of every key pushed, for at
most `fuel` turns. -/
def explore (succ : K → List K) : Nat → Nat → List K → List K
  | 0, _, queue => queue
  | fuel + 1, head, queue =>
    match queue[head]? with
    | none => queue
    | some k => explore succ fuel (head + 1) ((succ k).foldl push queue)

/-- One step along the successor function. -/
def Leads (succ : K → List K) (a b : K) : Prop := b ∈ succ a

/-! ## 2. Pushing -/

theorem mem_push {queue : List K} {k x : K} : x ∈ push queue k ↔ x ∈ queue ∨ x = k := by
  unfold push
  split
  case isTrue hk =>
    constructor
    · exact Or.inl
    · rintro (hx | rfl)
      · exact hx
      · exact hk
  case isFalse => simp

theorem nodup_push {queue : List K} {k : K} (h : queue.Nodup) : (push queue k).Nodup := by
  unfold push
  split
  case isTrue => exact h
  case isFalse hk => exact List.nodup_append_comm.mp (List.nodup_cons.mpr ⟨hk, h⟩)

theorem prefix_push (queue : List K) (k : K) : queue <+: push queue k := by
  unfold push
  split
  case isTrue => exact List.prefix_rfl
  case isFalse => exact List.prefix_append _ _

theorem mem_pushAll {x : K} : ∀ {ks queue : List K},
    x ∈ ks.foldl push queue ↔ x ∈ queue ∨ x ∈ ks
  | [], _ => by simp
  | k :: ks, queue => by
    rw [List.foldl_cons, mem_pushAll, mem_push, List.mem_cons, or_assoc]

theorem nodup_pushAll : ∀ {ks queue : List K}, queue.Nodup → (ks.foldl push queue).Nodup
  | [], _, h => h
  | k :: ks, queue, h => by
    rw [List.foldl_cons]
    exact nodup_pushAll (nodup_push h)

theorem prefix_pushAll : ∀ (ks queue : List K), queue <+: ks.foldl push queue
  | [], _ => List.prefix_rfl
  | k :: ks, queue => (prefix_push queue k).trans (prefix_pushAll ks _)

/-! ## 3. What the loop collects -/

section Explore

variable {succ : K → List K}

theorem explore_induction {P : List K → Prop}
    (hstep : ∀ queue k, P queue → k ∈ queue → P ((succ k).foldl push queue)) :
    ∀ (fuel head : Nat) {queue : List K}, P queue → P (explore succ fuel head queue)
  | 0, _, _, h => h
  | fuel + 1, head, queue, h => by
    unfold explore
    cases hget : queue[head]? with
    | none => exact h
    | some k =>
      exact explore_induction hstep fuel (head + 1)
        (hstep queue k h (List.mem_of_getElem? hget))

theorem subset_explore (fuel head : Nat) (queue : List K) : queue ⊆ explore succ fuel head queue := by
  refine explore_induction (P := fun q => queue ⊆ q) ?_ fuel head (List.Subset.refl _)
  intro q k hq _ x hx
  exact mem_pushAll.mpr (.inl (hq hx))

theorem nodup_explore (fuel head : Nat) {queue : List K} (h : queue.Nodup) :
    (explore succ fuel head queue).Nodup :=
  explore_induction (P := List.Nodup) (fun _ _ hq _ => nodup_pushAll hq) fuel head h

theorem reaches_of_mem_explore (fuel head : Nat) (queue : List K) :
    ∀ y ∈ explore succ fuel head queue, ∃ x ∈ queue, Relation.ReflTransGen (Leads succ) x y := by
  refine explore_induction
    (P := fun q => ∀ y ∈ q, ∃ x ∈ queue, Relation.ReflTransGen (Leads succ) x y) ?_ fuel head
    fun y hy => ⟨y, hy, .refl⟩
  intro q k hq hk y hy
  rcases mem_pushAll.mp hy with hy | hy
  · exact hq y hy
  · obtain ⟨x, hx, hxk⟩ := hq k hk
    exact ⟨x, hx, hxk.tail hy⟩

theorem length_explore_le {all start : List K} (hall : ∀ x ∈ all, ∀ y ∈ succ x, y ∈ all)
    (hstart : start ⊆ all) (hnodup : start.Nodup) (fuel head : Nat) :
    (explore succ fuel head start).length ≤ all.length := by
  have hsub : explore succ fuel head start ⊆ all := by
    refine explore_induction (P := fun q => q ⊆ all) ?_ fuel head hstart
    intro q k hq hk x hx
    rcases mem_pushAll.mp hx with hx | hx
    · exact hq hx
    · exact hall k (hq hk) x hx
  exact (List.subperm_of_subset (nodup_explore fuel head hnodup) hsub).length_le

/-- The positions before `head` are done: their successors are in the queue. -/
def Settled (succ : K → List K) (head : Nat) (queue : List K) : Prop :=
  ∀ i < head, ∀ k, queue[i]? = some k → ∀ y ∈ succ k, y ∈ queue

theorem Settled.turn {head : Nat} {queue : List K} {k : K} (h : Settled succ head queue)
    (hk : queue[head]? = some k) : Settled succ (head + 1) ((succ k).foldl push queue) := by
  intro i hi x hx y hy
  have hold : queue[i]? = some x := by
    have hlt : i < queue.length := by
      have := (List.getElem?_eq_some_iff.mp hk).1
      omega
    obtain ⟨more, hmore⟩ := prefix_pushAll (succ k) queue
    rw [← hmore, List.getElem?_append_left hlt] at hx
    exact hx
  rcases Nat.lt_succ_iff_lt_or_eq.mp hi with hi | rfl
  · exact mem_pushAll.mpr (.inl (h i hi x hold y hy))
  · rw [hk] at hold
    cases hold
    exact mem_pushAll.mpr (.inr hy)

/-- **The loop ends, and what it leaves is closed**: `all` holds the queue and is never left, and
there is a turn for each of its elements that has not been read. -/
theorem closed_explore {all : List K} (hall : ∀ x ∈ all, ∀ y ∈ succ x, y ∈ all) :
    ∀ (fuel head : Nat) {queue : List K}, queue.Nodup → queue ⊆ all → Settled succ head queue →
      all.length ≤ fuel + head →
      ∀ x ∈ explore succ fuel head queue, ∀ y ∈ succ x, y ∈ explore succ fuel head queue
  | 0, head, queue, hnodup, hsub, hset, hfuel => by
    intro x hx y hy
    obtain ⟨i, hi, hget⟩ := List.mem_iff_getElem.mp hx
    have hlen : queue.length ≤ all.length := (List.subperm_of_subset hnodup hsub).length_le
    simp only [explore] at hi
    exact hset i (by omega) x (List.getElem?_eq_some_iff.mpr ⟨hi, hget⟩) y hy
  | fuel + 1, head, queue, hnodup, hsub, hset, hfuel => by
    unfold explore
    cases hget : queue[head]? with
    | none =>
      intro x hx y hy
      change x ∈ queue at hx
      obtain ⟨i, hi, hx⟩ := List.mem_iff_getElem.mp hx
      have hlen := List.getElem?_eq_none_iff.mp hget
      exact hset i (by omega) x (List.getElem?_eq_some_iff.mpr ⟨hi, hx⟩) y hy
    | some k =>
      have hk : k ∈ all := hsub (List.mem_of_getElem? hget)
      refine closed_explore hall fuel (head + 1) (nodup_pushAll hnodup) ?_ (hset.turn hget)
        (by omega)
      intro x hx
      rcases mem_pushAll.mp hx with hx | hx
      · exact hsub hx
      · exact hall k hk x hx

/-- **The queue ends as the set of everything that can be reached from its start.** -/
theorem mem_explore {all start : List K} {fuel : Nat} (hall : ∀ x ∈ all, ∀ y ∈ succ x, y ∈ all)
    (hstart : start ⊆ all) (hnodup : start.Nodup) (hfuel : all.length ≤ fuel) {y : K} :
    y ∈ explore succ fuel 0 start ↔ ∃ x ∈ start, Relation.ReflTransGen (Leads succ) x y := by
  constructor
  · exact reaches_of_mem_explore fuel 0 start y
  · rintro ⟨x, hx, hxy⟩
    have hclosed := closed_explore hall fuel 0 hnodup hstart (fun _ hi => absurd hi (by omega)) hfuel
    induction hxy with
    | refl => exact subset_explore fuel 0 start hx
    | tail _ hstep ih => exact hclosed _ ih _ hstep

end Explore

/-! ## 4. Reachable sets -/

section Reachable

variable {V : Type} {r r' : V → V → Prop} {x : V}

/-- What can be reached from `k`, itself included. -/
def above (r : V → V → Prop) (k : V) : Set V := {a | Relation.ReflTransGen r k a}

/-- What `k` can be reached from, itself included. -/
def below (r : V → V → Prop) (k : V) : Set V := {d | Relation.ReflTransGen r d k}

theorem above_mono (h : ∀ a b, r a b → r' a b) (k : V) : above r k ⊆ above r' k := fun _ hk =>
  Relation.ReflTransGen.mono h _ _ hk

theorem below_mono (h : ∀ a b, r a b → r' a b) (k : V) : below r k ⊆ below r' k := fun _ hk =>
  Relation.ReflTransGen.mono h _ _ hk

theorem encard_le_length [DecidableEq V] {s : Set V} {l : List V} (h : ∀ a ∈ s, a ∈ l) :
    s.encard ≤ l.length := by
  have hsub : s ⊆ (l.toFinset : Set V) := by
    intro a ha
    exact List.mem_toFinset.mpr (h a ha)
  calc s.encard ≤ (l.toFinset : Set V).encard := Set.encard_le_encard hsub
    _ = l.toFinset.card := Set.encard_coe_eq_coe_finsetCard _
    _ ≤ l.length := by exact_mod_cast l.toFinset_card_le

/-- A list without repetition inside a set is no longer than the set. -/
theorem length_le_encard [DecidableEq V] {s : Set V} {l : List V} (hnodup : l.Nodup)
    (h : ∀ a ∈ l, a ∈ s) : (l.length : ℕ∞) ≤ s.encard := by
  have hsub : (l.toFinset : Set V) ⊆ s := by
    intro a ha
    exact h a (List.mem_toFinset.mp ha)
  rw [← List.toFinset_card_of_nodup hnodup, ← Set.encard_coe_eq_coe_finsetCard]
  exact Set.encard_le_encard hsub

/-- A new vertex `x` that no other vertex leads to. -/
structure Grows (r r' : V → V → Prop) (x : V) : Prop where
  old : ∀ {a b}, a ≠ x → r' a b → r a b
  fresh : ∀ {a b}, r a b → b ≠ x

theorem Grows.reaches (h : Grows r r' x) {a b : V} (ha : a ≠ x)
    (hab : Relation.ReflTransGen r' a b) : Relation.ReflTransGen r a b ∧ b ≠ x := by
  induction hab with
  | refl => exact ⟨.refl, ha⟩
  | tail _ hstep ih =>
    obtain ⟨hreach, hne⟩ := ih
    exact ⟨hreach.tail (h.old hne hstep), h.fresh (h.old hne hstep)⟩

theorem Grows.above_of_ne (h : Grows r r' x) {k : V} (hk : k ≠ x) : above r' k ⊆ above r k :=
  fun _ ha => (h.reaches hk ha).1

theorem Grows.above_self (h : Grows r r' x) {a : V} (ha : a ∈ above r' x) :
    a = x ∨ ∃ s, r' x s ∧ s ≠ x ∧ Relation.ReflTransGen r s a := by
  induction ha with
  | refl => exact .inl rfl
  | @tail b c _ hstep ih =>
    by_cases hc : c = x
    · exact .inl hc
    · rcases ih with rfl | ⟨s, hs, hne, hreach⟩
      · exact .inr ⟨c, hstep, hc, .refl⟩
      · by_cases hb : b = x
        · subst hb
          exact .inr ⟨c, hstep, hc, .refl⟩
        · exact .inr ⟨s, hs, hne, hreach.tail (h.old hb hstep)⟩

theorem Grows.below_self (h : Grows r r' x) : below r' x ⊆ {x} := by
  intro d hd
  by_contra hne
  exact (h.reaches hne hd).2 rfl

/-- An old vertex is reached by one vertex more at most, and only if the new one leads to it. -/
theorem Grows.below_of_ne (h : Grows r r' x) {k : V} :
    below r' k ⊆ insert x (below r k) ∧ (x ∉ below r' k → below r' k ⊆ below r k) := by
  constructor
  · intro d hd
    by_cases hne : d = x
    · exact .inl hne
    · exact .inr (h.reaches hne hd).1
  · intro hx d hd
    have hne : d ≠ x := by
      rintro rfl
      exact hx hd
    exact (h.reaches hne hd).1

end Reachable

end Moneu.Worklist
