/-
# Loops fed from outside

A loop that reads clocks, flags and devices in every turn: the readings of a turn are its input, and
a finite list of inputs is a finite part of what the outside does.  `run` is `none` as long as the
loop has not returned.

`taken` lists the turns a run takes, each with the state before it.  Two rules carry the proofs over
such loops: what every turn keeps holds of what is returned (`run_spec`), and what every turn keeps
under a condition holds before each turn of a run whose turns all meet the condition (`taken_inv`).
-/
import Mathlib.Data.List.Induction
import Mathlib.Logic.Function.Iterate

namespace Moneu

/-- How a turn of a loop ends: with the next state, or with a value that is returned. -/
inductive Turn (σ ρ : Type) where
  | next (s : σ)
  | done (r : ρ)

namespace Turn

variable {σ ι ρ : Type}

def run (turn : σ → ι → Turn σ ρ) : σ → List ι → Option ρ
  | _, [] => none
  | s, i :: is =>
    match turn s i with
    | .next s' => run turn s' is
    | .done r => some r

/-- The turns the loop takes on a list of inputs. -/
def taken (turn : σ → ι → Turn σ ρ) : σ → List ι → List (σ × ι)
  | _, [] => []
  | s, i :: is =>
    (s, i) ::
      match turn s i with
      | .next s' => taken turn s' is
      | .done _ => []

variable {turn : σ → ι → Turn σ ρ} {I : σ → Prop}

theorem run_spec {Q : ρ → Prop} (hnext : ∀ s i s', I s → turn s i = .next s' → I s')
    (hdone : ∀ s i r, I s → turn s i = .done r → Q r) :
    ∀ {is : List ι} {s : σ} {r : ρ}, I s → run turn s is = some r → Q r := by
  intro is
  induction is with
  | nil =>
    intro s r _ hrun
    cases hrun
  | cons i is ih =>
    intro s r hs hrun
    rw [run] at hrun
    cases hturn : turn s i with
    | next s' =>
      rw [hturn] at hrun
      exact ih (hnext s i s' hs hturn) hrun
    | done r' =>
      rw [hturn] at hrun
      exact Option.some.inj hrun ▸ hdone s i r' hs hturn

/-- What the turns keep under a condition holds before every turn of a run that meets it. -/
theorem taken_inv {C : σ → ι → Prop} (hnext : ∀ s i s', I s → C s i → turn s i = .next s' → I s') :
    ∀ {is : List ι} {s : σ}, I s → (∀ p ∈ taken turn s is, C p.1 p.2) →
      ∀ p ∈ taken turn s is, I p.1 := by
  intro is
  induction is with
  | nil =>
    intro s _ _ p hp
    cases hp
  | cons i is ih =>
    intro s hs hC p hp
    rw [taken] at hC hp
    rcases List.mem_cons.1 hp with rfl | hp
    · exact hs
    · cases hturn : turn s i with
      | next s' =>
        rw [hturn] at hC hp
        have hs' := hnext s i s' hs (hC (s, i) (List.mem_cons_self ..)) hturn
        exact ih hs' (fun q hq => hC q (List.mem_cons_of_mem _ hq)) p hp
      | done r =>
        rw [hturn] at hp
        cases hp

theorem mem_taken_of_run : ∀ {is : List ι} {s : σ} {r : ρ}, run turn s is = some r →
    ∃ p ∈ taken turn s is, turn p.1 p.2 = .done r := by
  intro is
  induction is with
  | nil =>
    intro s r hrun
    cases hrun
  | cons i is ih =>
    intro s r hrun
    rw [run] at hrun
    rw [taken]
    cases hturn : turn s i with
    | next s' =>
      rw [hturn] at hrun
      obtain ⟨p, hp, hdone⟩ := ih hrun
      exact ⟨p, List.mem_cons_of_mem _ hp, hdone⟩
    | done r' =>
      rw [hturn] at hrun
      exact ⟨(s, i), List.mem_cons_self .., hturn.trans (by rw [Option.some.inj hrun])⟩

theorem run_replicate {f : σ → σ} {i : ι} (hturn : ∀ s, turn s i = .next (f s)) (is : List ι) :
    ∀ (n : Nat) (s : σ), run turn s (List.replicate n i ++ is) = run turn (f^[n] s) is := by
  intro n
  induction n with
  | zero => exact fun _ => rfl
  | succ n ih =>
    intro s
    rw [List.replicate_succ, List.cons_append, run, hturn, Function.iterate_succ_apply]
    exact ih (f s)

end Turn

/-- **A machine driven by events.**  If from good states an event leads to a good state exactly when it
fits, then a run is good at every moment exactly when every event fits the state in which it happens. -/
theorem forall_run_iff {σ ι : Type} {step : σ → ι → σ} {I : σ → Prop} {Fits : σ → ι → Prop} {s : σ}
    (hs : I s) (hstep : ∀ s i, I s → (I (step s i) ↔ Fits s i)) (events : List ι) :
    (∀ before, before <+: events → I (before.foldl step s)) ↔
      ∀ before event, before ++ [event] <+: events → Fits (before.foldl step s) event := by
  constructor
  · intro h before event hpre
    have hafter := h _ hpre
    rw [List.foldl_append] at hafter
    exact (hstep _ event (h before ((List.prefix_append ..).trans hpre))).mp hafter
  · intro h before
    induction before using List.reverseRecOn with
    | nil => exact fun _ => hs
    | append_singleton before event ih =>
      intro hpre
      rw [List.foldl_append]
      exact (hstep _ event (ih ((List.prefix_append ..).trans hpre))).mpr (h before event hpre)

end Moneu
