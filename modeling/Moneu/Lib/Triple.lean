/-
# Triples for programs with state and exceptions

A program of type `EStateM ε σ α` ends with a value or with an exception, and in both cases with a
state: what was assigned before an exception stays assigned.  A triple therefore has two
postconditions, one for each way to end.
-/
namespace Moneu

/-- Started where `P` holds, `c` returns where `Q` holds of the value, or throws where `E` holds. -/
def Triple {ε σ α : Type} (P : σ → Prop) (c : EStateM ε σ α) (Q : α → σ → Prop) (E : σ → Prop) :
    Prop :=
  ∀ s, P s → match c s with
    | .ok a s' => Q a s'
    | .error _ s' => E s'

namespace Triple

variable {ε σ α β : Type} {P : σ → Prop} {Q : α → σ → Prop} {R : β → σ → Prop} {E : σ → Prop}

variable {c : EStateM ε σ α}

theorem pure {a : α} (h : ∀ s, P s → Q a s) : Triple P (Pure.pure a : EStateM ε σ α) Q E := h

theorem throw {what : ε} (h : ∀ s, P s → E s) :
    Triple P (MonadExcept.throw what : EStateM ε σ α) Q E := h

theorem bind {f : α → EStateM ε σ β} (hc : Triple P c Q E) (hf : ∀ a, Triple (Q a) (f a) R E) :
    Triple P (c >>= f) R E := by
  intro s hs
  have hrun := hc s hs
  simp only [Bind.bind, EStateM.bind]
  cases hcase : c s with
  | ok a s' =>
    rw [hcase] at hrun
    exact hf a s' hrun
  | error e s' =>
    rw [hcase] at hrun
    exact hrun

theorem imp {P' : σ → Prop} {Q' : α → σ → Prop} (h : Triple P c Q E) (hpre : ∀ s, P' s → P s)
    (hpost : ∀ a s, Q a s → Q' a s) : Triple P' c Q' E := by
  intro s hs
  have hrun := h s (hpre s hs)
  cases hcase : c s with
  | ok a s' =>
    rw [hcase] at hrun
    exact hpost a s' hrun
  | error e s' =>
    rw [hcase] at hrun
    exact hrun

theorem imp_error {E' : σ → Prop} (h : Triple P c Q E) (hE : ∀ s, E s → E' s) :
    Triple P c Q E' := by
  intro s hs
  have hrun := h s hs
  cases hcase : c s with
  | ok a s' =>
    rw [hcase] at hrun
    exact hrun
  | error e s' =>
    rw [hcase] at hrun
    exact hE s' hrun

theorem assume {p : Prop} (h : p → Triple P c Q E) :
    Triple (fun s => p ∧ P s) c Q E := fun s hs => h hs.1 s hs.2

theorem exists_pre {γ : Type} {P : γ → σ → Prop} (h : ∀ x, Triple (P x) c Q E) :
    Triple (fun s => ∃ x, P x s) c Q E := by
  rintro s ⟨x, hx⟩
  exact h x s hx

theorem run (h : Triple P c Q E) {s : σ} (hs : P s) :
    match c s with
    | .ok a s' => Q a s'
    | .error _ s' => E s' := h s hs

/-! Triples that start from one known state. -/

theorem bind_at {f : α → EStateM ε σ β} {s s' : σ} {a : α} (hc : c s = .ok a s')
    (hf : Triple (· = s') (f a) R E) : Triple (· = s) (c >>= f) R E := by
  rintro _ rfl
  have hrun := hf s' rfl
  simp only [Bind.bind, EStateM.bind, hc]
  exact hrun

theorem ite {p : Prop} [Decidable p] {d : EStateM ε σ α} (hc : p → Triple P c Q E)
    (hd : ¬ p → Triple P d Q E) : Triple P (if p then c else d) Q E := by
  split
  case isTrue hp => exact hc hp
  case isFalse hp => exact hd hp

end Triple

end Moneu
