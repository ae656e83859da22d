import P2PTransfer.Lib.Run

/-!
# Machines that report on a bounded channel

A machine puts events on a channel that others fill as well and that a consumer empties
in its own time. An event is put there by waiting for room, or it is only tried, and then
a full channel loses it.

## Main definitions

- `Post` — an event and how it is put on the channel
- `Machine.reporting` — a machine with its channel
- `Machine.OnInner` — a condition on the steps of the machine itself
- `Machine.Roomy` — no event is tried on a full channel
-/

namespace Transition

variable {σ α ε : Type*}

/-- An event that is waited with, or tried. -/
inductive Post (ε : Type*) where
  | wait (e : ε)
  | attempt (e : ε)

def Post.event : Post ε → ε
  | .wait e | .attempt e => e

@[simp] theorem Post.event_wait (e : ε) : (Post.wait e).event = e := rfl

@[simp] theorem Post.event_attempt (e : ε) : (Post.attempt e).event = e := rfl

/-- A state with the number of events in the channel, and the machine's own events so far. -/
structure Reporting (σ ε : Type*) where
  inner : σ
  fill : Nat
  placed : List ε := []

inductive ReportAct (α : Type*) where
  | inner (a : α)
  | taken
  | other

namespace Machine

variable (M : Machine σ α) (capacity : Nat) (post : σ → α → Option (Post ε))

/-- What becomes of the channel when a step posts. -/
def deliver (r : Reporting σ ε) (t : σ) : Option (Post ε) → Option (Reporting σ ε)
  | none => some { r with inner := t }
  | some (.wait e) => guarded (r.fill < capacity) ⟨t, r.fill + 1, r.placed ++ [e]⟩
  | some (.attempt e) =>
    some (if r.fill < capacity then ⟨t, r.fill + 1, r.placed ++ [e]⟩ else { r with inner := t })

def reporting : Machine (Reporting σ ε) (ReportAct α) where
  step r
    | .inner a => (M.step r.inner a).bind fun t => deliver capacity r t (post r.inner a)
    | .taken => guarded (0 < r.fill) { r with fill := r.fill - 1 }
    | .other => guarded (r.fill < capacity) { r with fill := r.fill + 1 }

/-- The step does not try an event on a full channel. -/
def Roomy (r : Reporting σ ε) (a : α) : Prop :=
  match post r.inner a with
  | some (.attempt _) => r.fill < capacity
  | _ => True

instance (r : Reporting σ ε) (a : α) : Decidable (Roomy capacity post r a) :=
  match h : post r.inner a with
  | some (.attempt _) => decidable_of_iff (r.fill < capacity) (by simp [Roomy, h])
  | some (.wait _) => isTrue (by simp [Roomy, h])
  | none => isTrue (by simp [Roomy, h])

/-- A condition on the machine's own steps. -/
def OnInner (ok : Reporting σ ε → α → Prop) (r : Reporting σ ε) : ReportAct α → Prop
  | .inner a => ok r a
  | _ => True

instance (ok : Reporting σ ε → α → Prop) [∀ r a, Decidable (ok r a)] (r : Reporting σ ε)
    (a : ReportAct α) : Decidable (OnInner ok r a) :=
  match a with
  | .inner a => inferInstanceAs (Decidable (ok r a))
  | .taken => isTrue trivial
  | .other => isTrue trivial

variable {M capacity post}

/-- A step puts its event on the channel, or loses it to a full one. -/
theorem deliver_cases {r r' : Reporting σ ε} {t : σ} {p : Option (Post ε)}
    (hs : deliver capacity r t p = some r') : r'.inner = t ∧
      (r'.placed = r.placed ++ (p.map Post.event).toList ∨
        (∃ e, p = some (.attempt e)) ∧ ¬ r.fill < capacity ∧ r'.placed = r.placed) := by
  cases p with
  | none =>
    obtain rfl := Option.some.inj hs
    exact ⟨rfl, .inl (List.append_nil _).symm⟩
  | some p =>
    cases p with
    | wait e =>
      obtain ⟨-, rfl⟩ := guarded_eq_some.mp hs
      exact ⟨rfl, .inl rfl⟩
    | attempt e =>
      obtain rfl := Option.some.inj hs
      split
      · exact ⟨rfl, .inl rfl⟩
      · rename_i hfull
        exact ⟨rfl, .inr ⟨⟨e, rfl⟩, hfull, rfl⟩⟩

/-- **Outbox rule.** What holds of the machine and its events is kept by a step with its
event and by one whose event is lost. -/
theorem reporting_invariant_lossy {ok : Reporting σ ε → α → Prop} {r r' : Reporting σ ε}
    (I : σ → List ε → Prop) (h : (M.reporting capacity post).Reach (OnInner ok) r r')
    (start : I r.inner r.placed)
    (keep : ∀ r a t, ok r a → I r.inner r.placed → M.step r.inner a = some t →
      I t (r.placed ++ ((post r.inner a).map Post.event).toList))
    (lose : ∀ r a t e, ok r a → I r.inner r.placed → M.step r.inner a = some t →
      post r.inner a = some (.attempt e) → ¬ r.fill < capacity → I t r.placed) :
    I r'.inner r'.placed := by
  refine h.invariant (I := fun r => I r.inner r.placed) start ?_
  intro r a r' hI hok hs
  cases a with
  | inner a =>
    obtain ⟨t, ht, hd⟩ := Option.bind_eq_some_iff.mp hs
    obtain ⟨hinner, hplaced | ⟨⟨e, he⟩, hfull, hplaced⟩⟩ := deliver_cases hd
    · rw [hinner, hplaced]
      exact keep r a t hok hI ht
    · rw [hinner, hplaced]
      exact lose r a t e hok hI ht he hfull
  | taken =>
    obtain ⟨-, rfl⟩ := guarded_eq_some.mp hs
    exact hI
  | other =>
    obtain ⟨-, rfl⟩ := guarded_eq_some.mp hs
    exact hI

/-- The rule for a machine whose events are never tried on a full channel. -/
theorem reporting_invariant {ok : Reporting σ ε → α → Prop} {r r' : Reporting σ ε}
    (I : σ → List ε → Prop) (h : (M.reporting capacity post).Reach (OnInner ok) r r')
    (room : ∀ r a, ok r a → Roomy capacity post r a) (start : I r.inner r.placed)
    (keep : ∀ r a t, ok r a → I r.inner r.placed → M.step r.inner a = some t →
      I t (r.placed ++ ((post r.inner a).map Post.event).toList)) : I r'.inner r'.placed := by
  refine reporting_invariant_lossy I h start keep fun r a t e hok _ _ he hfull => ?_
  have hroom := room r a hok
  simp only [Roomy, he] at hroom
  exact absurd hroom hfull

end Machine

end Transition
