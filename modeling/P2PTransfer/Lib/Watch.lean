import P2PTransfer.Lib.Run

/-!
# Watch channels

A watch channel keeps the latest value sent to it and counts the sends. A receiver
remembers the count that it has seen; while the two counts agree, it has missed nothing.
What a receiver has read of such a channel stays true of the value until the counts
differ, however many sends come between its steps.

## Main definitions

- `Watch`, `Watch.Receiver` — the channel and what a receiver has seen
- `Watch.Tracks` — while no change is unseen, the value has a property
-/

namespace Transition

/-- The latest value of a channel and how many values have been sent to it. -/
structure Watch (α : Type*) where
  value : α
  version : Nat := 0
deriving DecidableEq

namespace Watch

variable {α : Type*}

structure Receiver where
  seen : Nat := 0
deriving DecidableEq

def send (c : Watch α) (a : α) : Watch α := ⟨a, c.version + 1⟩

/-- A new receiver has seen the current version. -/
def subscribe (c : Watch α) : Receiver := ⟨c.version⟩

/-- Reads the value and leaves the seen version. -/
def borrow (c : Watch α) : α := c.value

/-- A change that the receiver has not seen, on which `changed` completes. -/
def hasChanged (c : Watch α) (r : Receiver) : Bool := decide (c.version ≠ r.seen)

/-- What `changed` leaves when it completes. -/
def markSeen (c : Watch α) : Receiver := ⟨c.version⟩

@[simp] theorem value_send (c : Watch α) (a : α) : (c.send a).value = a := rfl

@[simp] theorem version_send (c : Watch α) (a : α) : (c.send a).version = c.version + 1 := rfl

@[simp] theorem seen_subscribe (c : Watch α) : c.subscribe.seen = c.version := rfl

@[simp] theorem seen_markSeen (c : Watch α) : c.markSeen.seen = c.version := rfl

@[simp] theorem hasChanged_eq_false {c : Watch α} {r : Receiver} :
    c.hasChanged r = false ↔ c.version = r.seen := by
  simp [hasChanged]

/-- The receiver is not ahead of the channel, and while it has seen all of it, the value
has the property. -/
structure Tracks (c : Watch α) (r : Receiver) (P : α → Prop) : Prop where
  le : r.seen ≤ c.version
  holds : c.version = r.seen → P c.value

variable {c : Watch α} {r : Receiver} {P Q : α → Prop}

theorem tracks_subscribe : c.Tracks c.subscribe fun _ => True := ⟨Nat.le_refl _, fun _ => trivial⟩

theorem tracks_markSeen : c.Tracks c.markSeen fun _ => True := ⟨Nat.le_refl _, fun _ => trivial⟩

/-- A value read now is what the receiver tracks from now on. -/
theorem Tracks.borrow (h : c.Tracks r Q) (hP : P c.borrow) : c.Tracks r P :=
  ⟨h.le, fun _ => hP⟩

/-- A send is a change that no receiver has seen. -/
theorem Tracks.send (h : c.Tracks r P) (a : α) : (c.send a).Tracks r P := by
  have hle := h.le
  refine ⟨?_, fun heq => ?_⟩
  · rw [version_send]
    omega
  · rw [version_send] at heq
    omega

theorem Tracks.mono (h : c.Tracks r P) (hw : ∀ a, P a → Q a) : c.Tracks r Q :=
  ⟨h.le, fun heq => hw _ (h.holds heq)⟩

end Watch

end Transition
