import P2PTransfer.Lib.Run
import P2PTransfer.Transfer.Metadata

/-!
# The control of a transfer

The two process-wide maps `TRANSFER_PAUSE_FLAGS` and `ACTIVE_TRANSFERS`, seen at
one request id, and the commands of the user interface on them. A flag is an
object of its own: a loop that holds one still sees it after the map has lost or
replaced it.

## Main definitions

- `PauseFlag`, `Control` — the flag objects and the entries of the two maps
- `Command`, `Control.command` — the steps of the pause, resume and cancel commands
-/

namespace P2PTransfer

open Transition

structure PauseFlag where
  paused : Bool := false
  cancelled : Bool := false
deriving DecidableEq, Repr

/-- How far `cancel_transfer` has come. -/
inductive CancelStep where
  | idle
  | signalled
  | deactivated
  | done
deriving DecidableEq, Repr

/-- The flag objects by their number, and the entries of one request id. -/
structure Control where
  flags : List PauseFlag := []
  registered : Option Nat := none
  active : Bool := false
  cancel : CancelStep := .idle
deriving DecidableEq, Repr

inductive Command where
  | pause
  | resume
  | cancelSignal
  | cancelDeactivate
  | cancelUnregister
deriving DecidableEq, Repr

/-- The steps of `cancel_transfer`. -/
def Command.cancels : Command → Bool
  | .pause | .resume => false
  | _ => true

namespace Control

/-- `TRANSFER_PAUSE_FLAGS.insert(id, PauseFlag::new())`. -/
def register (c : Control) : Control :=
  { c with flags := c.flags ++ [{}], registered := some c.flags.length }

def unregister (c : Control) : Control := { c with registered := none }

def activate (c : Control) : Control := { c with active := true }

def deactivate (c : Control) : Control := { c with active := false }

def flag (c : Control) (handle : Option Nat) : PauseFlag :=
  match handle with
  | some h => c.flags.getD h {}
  | none => {}

def cancelled (c : Control) (handle : Option Nat) : Bool := (c.flag handle).cancelled

def paused (c : Control) (handle : Option Nat) : Bool := (c.flag handle).paused

/-- A change of the flag that the map holds, if it holds one. -/
def signal (c : Control) (change : PauseFlag → PauseFlag) : Control :=
  match c.registered with
  | some h => { c with flags := c.flags.modify h change }
  | none => c

/-- One step of a command. The three steps of `cancel_transfer` come in order. -/
def command (c : Control) : Command → Option Control
  | .pause => some (c.signal fun f => { f with paused := true })
  | .resume => some (c.signal fun f => { f with paused := false })
  | .cancelSignal => guarded (c.cancel = .idle)
      { c.signal fun f => { f with cancelled := true } with cancel := .signalled }
  | .cancelDeactivate => guarded (c.cancel = .signalled)
      { c.deactivate with cancel := .deactivated }
  | .cancelUnregister => guarded (c.cancel = .deactivated)
      { c.unregister with cancel := .done }

variable (c : Control)

@[simp] theorem cancelled_none : c.cancelled none = false := rfl

@[simp] theorem paused_none : c.paused none = false := rfl

@[simp, grind =] theorem registered_register : c.register.registered = some c.flags.length := rfl

@[simp, grind =] theorem registered_unregister : c.unregister.registered = none := rfl

@[simp, grind =] theorem registered_activate : c.activate.registered = c.registered := rfl

@[simp, grind =] theorem registered_deactivate : c.deactivate.registered = c.registered := rfl

@[simp, grind =] theorem cancel_register : c.register.cancel = c.cancel := rfl

@[simp, grind =] theorem cancel_unregister : c.unregister.cancel = c.cancel := rfl

@[simp, grind =] theorem cancel_activate : c.activate.cancel = c.cancel := rfl

@[simp, grind =] theorem cancel_deactivate : c.deactivate.cancel = c.cancel := rfl

@[simp, grind =] theorem flags_unregister : c.unregister.flags = c.flags := rfl

@[simp, grind =] theorem flags_activate : c.activate.flags = c.flags := rfl

@[simp, grind =] theorem flags_deactivate : c.deactivate.flags = c.flags := rfl

@[simp] theorem registered_signal (change : PauseFlag → PauseFlag) :
    (c.signal change).registered = c.registered := by
  unfold signal
  split <;> simp_all

theorem length_signal (change : PauseFlag → PauseFlag) :
    (c.signal change).flags.length = c.flags.length := by
  unfold signal
  split <;> simp

@[simp] theorem cancel_signal (change : PauseFlag → PauseFlag) :
    (c.signal change).cancel = c.cancel := by
  unfold signal
  split <;> rfl

/-- A command never takes a cancel back. -/
theorem cancelled_signal {change : PauseFlag → PauseFlag} {handle : Option Nat}
    (hc : ∀ f, f.cancelled → (change f).cancelled) (h : c.cancelled handle) :
    (c.signal change).cancelled handle := by
  cases handle with
  | none => cases h
  | some i =>
    cases hr : c.registered with
    | none => simpa [signal, hr] using h
    | some j =>
      have hs : (c.signal change).flags = c.flags.modify j change := by simp [signal, hr]
      simp only [cancelled, flag, hs, List.getD_eq_getElem?_getD, List.getElem?_modify] at h ⊢
      cases hi : c.flags[i]? with
      | none => simp [hi] at h
      | some f =>
        have hf : f.cancelled := by simpa [hi] using h
        by_cases hij : j = i
        · simpa [hij] using hc f hf
        · simpa [hij] using hf

/-- The flag that the map holds is cancelled by a signal. -/
theorem cancelled_signal_self {i : Nat} (hr : c.registered = some i) (hi : i < c.flags.length) :
    (c.signal fun f => { f with cancelled := true }).cancelled (some i) := by
  have hs : (c.signal fun f => { f with cancelled := true }).flags =
      c.flags.modify i fun f => { f with cancelled := true } := by simp [signal, hr]
  simp [cancelled, flag, hs, List.getElem?_eq_getElem hi]

variable {c} in
theorem cancelled_command {c' : Control} {k : Command} {handle : Option Nat}
    (h : c.cancelled handle) (hs : c.command k = some c') : c'.cancelled handle := by
  cases k with
  | pause =>
    cases hs
    exact c.cancelled_signal (fun _ hf => hf) h
  | resume =>
    cases hs
    exact c.cancelled_signal (fun _ hf => hf) h
  | cancelSignal =>
    simp only [command, guarded_eq_some] at hs
    obtain ⟨-, rfl⟩ := hs
    exact c.cancelled_signal (fun _ _ => rfl) h
  | cancelDeactivate =>
    simp only [command, guarded_eq_some] at hs
    obtain ⟨-, rfl⟩ := hs
    exact h
  | cancelUnregister =>
    simp only [command, guarded_eq_some] at hs
    obtain ⟨-, rfl⟩ := hs
    exact h

variable {c} in
/-- Only its last step takes the flag out of the map. -/
theorem registered_command {c' : Control} {k : Command} (hs : c.command k = some c') :
    c'.flags.length = c.flags.length ∧
      (c'.registered = c.registered ∨ (c'.registered = none ∧ c'.cancel = .done)) := by
  cases k with
  | cancelUnregister =>
    simp only [command, guarded_eq_some] at hs
    obtain ⟨-, rfl⟩ := hs
    exact ⟨rfl, .inr ⟨rfl, rfl⟩⟩
  | cancelDeactivate =>
    simp only [command, guarded_eq_some] at hs
    obtain ⟨-, rfl⟩ := hs
    exact ⟨rfl, .inl rfl⟩
  | cancelSignal =>
    simp only [command, guarded_eq_some] at hs
    obtain ⟨-, rfl⟩ := hs
    exact ⟨c.length_signal _, .inl (c.registered_signal _)⟩
  | pause =>
    cases hs
    exact ⟨c.length_signal _, .inl (c.registered_signal _)⟩
  | resume =>
    cases hs
    exact ⟨c.length_signal _, .inl (c.registered_signal _)⟩

variable {c} in
/-- With no flag in the map, no flag object changes. -/
theorem flags_command {c' : Control} {k : Command} (hr : c.registered = none)
    (hs : c.command k = some c') : c'.flags = c.flags ∧ c'.registered = none := by
  have hsig : ∀ change, c.signal change = c := fun change => by simp [signal, hr]
  cases k <;> simp only [command, hsig, guarded_eq_some, Option.some.injEq] at hs
  · exact hs ▸ ⟨rfl, hr⟩
  · exact hs ▸ ⟨rfl, hr⟩
  all_goals
    obtain ⟨-, rfl⟩ := hs
    simp [hr]

variable {c} in
theorem not_done_of_unregister {c' : Control} (hs : c.command .cancelUnregister = some c') :
    c.cancel ≠ .done := by
  simp only [command, guarded_eq_some] at hs
  simp [hs.1]

variable {c} in
theorem cancel_command {c' : Control} {k : Command} (hs : c.command k = some c')
    (h : c.cancel ≠ .idle) : c'.cancel ≠ .idle ∧ (c.cancel = .done → c'.cancel = .done) := by
  cases k with
  | pause =>
    cases hs
    simpa using h
  | resume =>
    cases hs
    simpa using h
  | _ =>
    simp only [command, guarded_eq_some] at hs
    obtain ⟨g, rfl⟩ := hs
    simp_all

/-- No flag has been cancelled. -/
def Clean : Prop := ∀ f ∈ c.flags, f.cancelled = false

variable {c}

theorem Clean.cancelled (h : c.Clean) (handle : Option Nat) : c.cancelled handle = false := by
  cases handle with
  | none => rfl
  | some i =>
    show (c.flags.getD i {}).cancelled = false
    rw [List.getD_eq_getElem?_getD]
    cases hi : c.flags[i]? with
    | none => rfl
    | some f => exact h f (List.mem_of_getElem? hi)

theorem Clean.register (h : c.Clean) : c.register.Clean := by
  intro f hf
  rcases List.mem_append.mp hf with hf | hf
  · exact h f hf
  · rw [List.mem_singleton.mp hf]

theorem Clean.signal (h : c.Clean) {change : PauseFlag → PauseFlag}
    (hc : ∀ f, (change f).cancelled = f.cancelled) : (c.signal change).Clean := by
  unfold Control.signal
  split
  · intro f hf
    obtain ⟨i, hi⟩ := List.mem_iff_getElem?.mp hf
    rw [List.getElem?_modify] at hi
    cases hj : c.flags[i]? with
    | none => simp [hj] at hi
    | some g =>
      have hg := h g (List.mem_of_getElem? hj)
      simp only [hj, Option.map_eq_map, Option.map_some, Option.some.injEq] at hi
      split at hi
      · rw [← hi, hc, hg]
      · rw [← hi, hg]
  · exact h

theorem Clean.command {c' : Control} {k : Command} (h : c.Clean) (hk : k.cancels = false)
    (hs : c.command k = some c') : c'.Clean := by
  cases k with
  | pause =>
    cases hs
    exact h.signal fun _ => rfl
  | resume =>
    cases hs
    exact h.signal fun _ => rfl
  | _ => cases hk

end Control

end P2PTransfer
