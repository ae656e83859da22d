import P2PTransfer.Lib.Run

/-!
# Components over a shared store

A family of components takes steps on a store that all of them see. A property of every
component and the store holds in every run if a component keeps it by its own steps and
no step of another component breaks it.

## Main definitions

- `Components` — what each component does to the store and itself
- `Components.machine` — all of them, in any order
-/

namespace Transition

variable {ι S σ α : Type*}

/-- What an action of a component does to the store and to the component. -/
structure Components (ι S σ α : Type*) where
  step : ι → S → σ → α → Option (S × σ)

/-- The store and the states of the components. -/
structure System (ι S σ : Type*) where
  store : S
  parts : ι → σ

namespace Components

variable [DecidableEq ι] (M : Components ι S σ α)

/-- The interleavings of the components. -/
def machine : Machine (System ι S σ) (ι × α) where
  step n a := (M.step a.1 n.store (n.parts a.1) a.2).map fun r =>
    ⟨r.1, Function.update n.parts a.1 r.2⟩

variable {M}

theorem machine_step {n n' : System ι S σ} {a : ι × α} :
    M.machine.step n a = some n' ↔ ∃ s x, M.step a.1 n.store (n.parts a.1) a.2 = some (s, x) ∧
      n' = ⟨s, Function.update n.parts a.1 x⟩ := by
  simp only [machine, Option.map_eq_some_iff, Prod.exists]
  constructor
  · rintro ⟨s, x, hs, rfl⟩
    exact ⟨s, x, hs, rfl⟩
  · rintro ⟨s, x, hs, rfl⟩
    exact ⟨s, x, hs, rfl⟩

/-- **Interference rule.** A property of each component is kept by its own steps and
survives those of the others. -/
theorem step_each {n n' : System ι S σ} {a : ι × α} (I : ι → S → σ → Prop)
    (hs : M.machine.step n a = some n')
    (own : ∀ s x, M.step a.1 n.store (n.parts a.1) a.2 = some (s, x) → I a.1 s x)
    (others : ∀ s x j, j ≠ a.1 → M.step a.1 n.store (n.parts a.1) a.2 = some (s, x) →
      I j s (n.parts j)) : ∀ i, I i n'.store (n'.parts i) := by
  obtain ⟨s, x, hstep, rfl⟩ := machine_step.mp hs
  intro i
  by_cases hi : i = a.1
  · subst hi
    simpa using own s x hstep
  · simpa [Function.update_of_ne hi] using others s x i hi hstep

end Components

end Transition
