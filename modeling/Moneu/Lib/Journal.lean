/-
# Journals of writes

A journal is a list of writes `(key, value)`, the oldest first, and `replay` runs it over a map.
Of a store that is only ever changed by writes, three things are all there is to know:

* a key the journal does not name keeps its value (`replay_of_notMem`);
* at a key the journal names, the result does not depend on what was there (`replay_congr`), so a
  journal may be run again over any half-written store;
* an undo journal takes a run back as soon as it names every key of the run and its own values
  are the old ones (`replay_undo_rel`).

The last one is stated for any relation between the values, because a store may agree with its
specification exactly or only be `Below` it (it may have lost entries, never gained any).

Section 3 bounds the worth of a map: what is left after a run is at most what was there, minus
what the overwritten keys were worth, plus what was written.
-/
import Mathlib.Algebra.Ring.Nat
import Mathlib.Algebra.BigOperators.Group.Finset.Basic
import Mathlib.Algebra.Order.BigOperators.Group.Finset
import Mathlib.Data.Finset.Basic

namespace Moneu.Journal

variable {K A : Type} [DecidableEq K]

/-! ## 1. Replay -/

/-- Run the writes of a journal over a map. -/
def replay (log : List (K × A)) (m : K → A) : K → A :=
  log.foldl (fun m w => Function.update m w.1 w.2) m

def keys (log : List (K × A)) : List K := log.map Prod.fst

@[simp]
theorem replay_nil (m : K → A) : replay [] m = m := rfl

@[simp]
theorem replay_cons (w : K × A) (log : List (K × A)) (m : K → A) :
    replay (w :: log) m = replay log (Function.update m w.1 w.2) := rfl

@[simp]
theorem replay_append (log log' : List (K × A)) (m : K → A) :
    replay (log ++ log') m = replay log' (replay log m) :=
  List.foldl_append

omit [DecidableEq K] in
@[simp]
theorem keys_append (log log' : List (K × A)) : keys (log ++ log') = keys log ++ keys log' :=
  List.map_append

omit [DecidableEq K] in
@[simp]
theorem keys_map {X : Type} (f : X → K × A) (xs : List X) :
    keys (xs.map f) = xs.map fun x => (f x).1 := by
  simp [keys, Function.comp_def]

/-- **A loop that makes one write a turn replays a journal.**  `π` is the map a caller sees of the
state `s`. -/
theorem replay_foldl {S X : Type} (π : S → K → A) (f : S → X → S) (w : X → K × A)
    (h : ∀ s x, π (f s x) = Function.update (π s) (w x).1 (w x).2) :
    ∀ (xs : List X) (s : S), π (xs.foldl f s) = replay (xs.map w) (π s)
  | [], _ => rfl
  | x :: xs, s => by
    rw [List.foldl_cons, replay_foldl π f w h xs, List.map_cons, replay_cons, h]

theorem replay_of_notMem {k : K} : ∀ {log : List (K × A)} (m : K → A), k ∉ keys log →
    replay log m k = m k
  | [], _, _ => rfl
  | w :: log, m, hk => by
    have hne : k ≠ w.1 := fun h => hk (h ▸ List.mem_cons_self ..)
    have htail : k ∉ keys log := fun h => hk (List.mem_cons_of_mem _ h)
    rw [replay_cons, replay_of_notMem _ htail, Function.update_of_ne hne]

/-- **At a written key the old map does not matter.** -/
theorem replay_congr {k : K} : ∀ {log : List (K × A)} (m n : K → A), k ∈ keys log →
    replay log m k = replay log n k
  | w :: log, m, n, hk => by
    rw [replay_cons, replay_cons]
    by_cases htail : k ∈ keys log
    · exact replay_congr _ _ htail
    · have hk : k = w.1 := by
        rcases List.mem_cons.mp hk with h | h
        · exact h
        · exact absurd h htail
      rw [replay_of_notMem _ htail, replay_of_notMem _ htail, hk]
      simp

theorem mem_of_replay {k : K} : ∀ {log : List (K × A)} (m : K → A), k ∈ keys log →
    (k, replay log m k) ∈ log
  | w :: log, m, hk => by
    by_cases htail : k ∈ keys log
    · exact List.mem_cons_of_mem _ (mem_of_replay _ htail)
    · have hk : k = w.1 := by
        rcases List.mem_cons.mp hk with h | h
        · exact h
        · exact absurd h htail
      rw [replay_cons, replay_of_notMem _ htail, hk]
      simp

theorem replay_eq_of_forall {k : K} {a : A} {log : List (K × A)} (m : K → A) (hk : k ∈ keys log)
    (h : ∀ b, (k, b) ∈ log → b = a) : replay log m k = a :=
  h _ (mem_of_replay m hk)

/-! ## 2. Relations between maps, and undo -/

/-- A relation that every written value has to itself survives a run on both sides. -/
theorem replay_rel {R : A → A → Prop} {log : List (K × A)} {m n : K → A}
    (hlog : ∀ w ∈ log, R w.2 w.2) (h : ∀ k, R (m k) (n k)) (k : K) :
    R (replay log m k) (replay log n k) := by
  by_cases hk : k ∈ keys log
  · rw [replay_congr m n hk]
    exact hlog _ (mem_of_replay n hk)
  · rw [replay_of_notMem m hk, replay_of_notMem n hk]
    exact h k

/-- **Undo.**  `x` is related to the map after the run; the undo journal names every key of the
run, and wherever it writes, it writes what is related to the map before the run.  Then running
it over `x` gives a map related to the one before the run. -/
theorem replay_undo_rel {R : A → A → Prop} {log undo : List (K × A)} {m x : K → A}
    (hx : ∀ k, R (x k) (replay log m k)) (hkeys : ∀ k ∈ keys log, k ∈ keys undo)
    (hundo : ∀ k ∈ keys undo, R (replay undo x k) (m k)) (k : K) : R (replay undo x k) (m k) := by
  by_cases hk : k ∈ keys undo
  · exact hundo k hk
  · have hlog : k ∉ keys log := fun h => hk (hkeys k h)
    have hrel := hx k
    rw [replay_of_notMem m hlog] at hrel
    rw [replay_of_notMem x hk]
    exact hrel

/-- The entry on the left, if there is one, is the entry on the right. -/
def Below {V : Type} (a b : Option V) : Prop := ∀ v, a = some v → b = some v

@[simp]
theorem Below.refl {V : Type} (a : Option V) : Below a a := fun _ h => h

@[simp]
theorem Below.none {V : Type} (b : Option V) : Below Option.none b := fun _ h => nomatch h

/-! ## 3. The worth of a map -/

section Worth

variable (worth : A → Nat)

/-- No finite set of keys is worth more than `total`. -/
def Capped (m : K → A) (total : Nat) : Prop := ∀ S : Finset K, ∑ k ∈ S, worth (m k) ≤ total

/-- Written keys are together worth at most everything that was written. -/
theorem sum_replay_le (log : List (K × A)) (m : K → A) (S : Finset K) (hS : ∀ k ∈ S, k ∈ keys log) :
    ∑ k ∈ S, worth (replay log m k) ≤ (log.map fun w => worth w.2).sum := by
  induction log generalizing m S with
  | nil =>
    have hempty : S = ∅ := Finset.eq_empty_of_forall_notMem fun k hk => by simpa [keys] using hS k hk
    simp [hempty]
  | cons w log ih =>
    -- only the key of the first write can be one that the rest does not name
    have hsplit := Finset.sum_filter_add_sum_filter_not S (· ∈ keys log)
      fun k => worth (replay (w :: log) m k)
    have htail : ∑ k ∈ S with k ∈ keys log, worth (replay (w :: log) m k) ≤
        (log.map fun w => worth w.2).sum :=
      ih (Function.update m w.1 w.2) _ fun k hk => (Finset.mem_filter.mp hk).2
    have hsub : S.filter (· ∉ keys log) ⊆ {w.1} := by
      intro k hk
      obtain ⟨hkS, hk⟩ := Finset.mem_filter.mp hk
      rcases List.mem_cons.mp (hS k hkS) with h | h
      · simpa using h
      · exact absurd h hk
    have hhead : ∑ k ∈ S with k ∉ keys log, worth (replay (w :: log) m k) ≤ worth w.2 := by
      calc ∑ k ∈ S with k ∉ keys log, worth (replay (w :: log) m k)
          = ∑ k ∈ S with k ∉ keys log, worth w.2 := by
            refine Finset.sum_congr rfl fun k hk => ?_
            have hkw : k = w.1 := by simpa using hsub hk
            rw [replay_cons, replay_of_notMem _ (Finset.mem_filter.mp hk).2, hkw]
            simp
        _ ≤ ∑ _k ∈ {w.1}, worth w.2 := Finset.sum_le_sum_of_subset hsub
        _ = worth w.2 := by simp
    rw [List.map_cons, List.sum_cons]
    omega

/-- **Conservation.**  A run that overwrites the keys of `D` turns a cap into the cap plus what
it writes minus what the keys of `D` were worth. -/
theorem Capped.replay {log : List (K × A)} {m : K → A} {total total' : Nat} (D : Finset K)
    (hm : Capped worth m total) (hD : ∀ k ∈ D, k ∈ keys log)
    (htotal : total + (log.map fun w => worth w.2).sum ≤ total' + ∑ k ∈ D, worth (m k)) :
    Capped worth (Journal.replay log m) total' := by
  intro S
  have hsplit := Finset.sum_filter_add_sum_filter_not S (· ∈ keys log)
    fun k => worth (Journal.replay log m k)
  have hwritten := sum_replay_le worth log m (S.filter (· ∈ keys log))
    fun k hk => (Finset.mem_filter.mp hk).2
  have hkept : ∑ k ∈ S with k ∉ keys log, worth (Journal.replay log m k) =
      ∑ k ∈ S with k ∉ keys log, worth (m k) :=
    Finset.sum_congr rfl fun k hk => by rw [replay_of_notMem m (Finset.mem_filter.mp hk).2]
  have hdisj : Disjoint (S.filter (· ∉ keys log)) D :=
    Finset.disjoint_left.mpr fun k hk hkD => (Finset.mem_filter.mp hk).2 (hD k hkD)
  have hcap := hm (S.filter (· ∉ keys log) ∪ D)
  rw [Finset.sum_union hdisj] at hcap
  omega

end Worth

end Moneu.Journal
