import P2PTransfer.Lib.Shared
import P2PTransfer.Lib.Watch

/-!
# The pause flag

`PauseFlag` is a pair of watch channels. The waits on it read the two channels one after
the other, subscribe before they read, and park only when both receivers have seen all.
The channels keep a receiver of their own, so that no send fails, and a wait borrows the
flag, so that no `changed` fails.

## Main definitions

- `PauseFlag`, `PauseFlag.pause`, … — the channels and the sends on them
- `WaitIfPaused.next`, `WaitForCancel.next` — the waits, one read or poll at a time
- `tasks` — any number of waits and of calls on one flag

## Main results

- `no_lost_wakeup` — a wait that stays parked has a reason to, and cancel wins
-/

namespace P2PTransfer.Flag

open Transition

structure PauseFlag where
  pauseTx : Watch Bool := { value := false }
  cancelTx : Watch Bool := { value := false }
deriving DecidableEq

namespace PauseFlag

def pause (f : PauseFlag) : PauseFlag := { f with pauseTx := f.pauseTx.send true }

def resume (f : PauseFlag) : PauseFlag := { f with pauseTx := f.pauseTx.send false }

def cancel (f : PauseFlag) : PauseFlag := { f with cancelTx := f.cancelTx.send true }

end PauseFlag

namespace WaitIfPaused

/-- The reads and polls of `wait_if_paused`. The select polls the cancel channel first
and returns `Pending` when neither has changed. -/
inductive Pc where
  | subscribePause
  | subscribeCancel
  | checkCancel
  | checkPause
  | pollCancel
  | pollPause
  | parked
  | recheckCancel
  | returned (cancelled : Bool)
deriving DecidableEq

end WaitIfPaused

/-- A call of `wait_if_paused`. -/
structure WaitIfPaused where
  pc : WaitIfPaused.Pc := .subscribePause
  pauseRx : Watch.Receiver := {}
  cancelRx : Watch.Receiver := {}
deriving DecidableEq

/-- The next read or poll. A parked call is polled again when it is woken, and may be
polled at any other time. -/
def WaitIfPaused.next (f : PauseFlag) (w : WaitIfPaused) : Option WaitIfPaused :=
  match w.pc with
  | .subscribePause => some { w with pc := .subscribeCancel, pauseRx := f.pauseTx.subscribe }
  | .subscribeCancel => some { w with pc := .checkCancel, cancelRx := f.cancelTx.subscribe }
  | .checkCancel =>
    if f.cancelTx.borrow then some { w with pc := .returned true }
    else some { w with pc := .checkPause }
  | .checkPause =>
    if !f.pauseTx.borrow then some { w with pc := .returned false }
    else some { w with pc := .pollCancel }
  | .pollCancel =>
    if f.cancelTx.hasChanged w.cancelRx then
      some { w with pc := .recheckCancel, cancelRx := f.cancelTx.markSeen }
    else some { w with pc := .pollPause }
  | .pollPause =>
    if f.pauseTx.hasChanged w.pauseRx then
      some { w with pc := .checkCancel, pauseRx := f.pauseTx.markSeen }
    else some { w with pc := .parked }
  | .parked => some { w with pc := .pollCancel }
  | .recheckCancel =>
    if f.cancelTx.borrow then some { w with pc := .returned true }
    else some { w with pc := .checkCancel }
  | .returned _ => none

namespace WaitForCancel

inductive Pc where
  | subscribe
  | check
  | poll
  | parked
  | recheck
  | returned
deriving DecidableEq

end WaitForCancel

/-- A call of `wait_for_cancel`. -/
structure WaitForCancel where
  pc : WaitForCancel.Pc := .subscribe
  cancelRx : Watch.Receiver := {}
deriving DecidableEq

def WaitForCancel.next (f : PauseFlag) (w : WaitForCancel) : Option WaitForCancel :=
  match w.pc with
  | .subscribe => some { pc := .check, cancelRx := f.cancelTx.subscribe }
  | .check => some { w with pc := if f.cancelTx.borrow then .returned else .poll }
  | .poll =>
    if f.cancelTx.hasChanged w.cancelRx then
      some { pc := .recheck, cancelRx := f.cancelTx.markSeen }
    else some { w with pc := .parked }
  | .parked => some { w with pc := .poll }
  | .recheck => some { w with pc := if f.cancelTx.borrow then .returned else .poll }
  | .returned => none

/-- The flag, and whether `cancel` has been called. -/
structure Store where
  flag : PauseFlag := {}
  cancelCalled : Bool := false
deriving DecidableEq

/-- What a task does with the flag. A wait remembers whether it began after a cancel. -/
inductive Task where
  | idle
  | ifPaused (after : Bool) (w : WaitIfPaused)
  | forCancel (w : WaitForCancel)
deriving DecidableEq

inductive Act where
  | pause
  | resume
  | cancel
  | callIfPaused
  | callForCancel
  | poll
  | drop
deriving DecidableEq

/-- One step of a task. The three sends are open to every task at all times; a call
begins when no other is open, and its future may be dropped at any point. -/
def step (s : Store) (t : Task) : Act → Option (Store × Task)
  | .pause => some ({ s with flag := s.flag.pause }, t)
  | .resume => some ({ s with flag := s.flag.resume }, t)
  | .cancel => some ({ flag := s.flag.cancel, cancelCalled := true }, t)
  | .callIfPaused => guarded (t = .idle) (s, .ifPaused s.cancelCalled {})
  | .callForCancel => guarded (t = .idle) (s, .forCancel {})
  | .poll =>
    match t with
    | .idle => none
    | .ifPaused after w => (w.next s.flag).map fun w => (s, .ifPaused after w)
    | .forCancel w => (w.next s.flag).map fun w => (s, .forCancel w)
  | .drop => some (s, .idle)

variable {ι : Type*}

/-- The tasks that share a flag. -/
def tasks (ι : Type*) : Components ι Store Task Act where
  step _ := step

/-- A new flag, and no call on it. -/
def start (ι : Type*) : System ι Store Task := ⟨{}, fun _ => .idle⟩

namespace WaitIfPaused

variable {f : PauseFlag} {w w' : WaitIfPaused}

/-- The flag was paused when the call last read it. -/
def Pc.sawPause : Pc → Bool
  | .pollCancel | .pollPause | .parked | .recheckCancel => true
  | _ => false

/-- The flag was not cancelled when the call last read it. -/
def Pc.sawRunning : Pc → Bool
  | .checkPause | .pollCancel | .pollPause | .parked => true
  | _ => false

/-- What a call has read is still so, unless there is a change for it to see. -/
structure Kept (f : PauseFlag) (w : WaitIfPaused) : Prop where
  pause : w.pc ≠ .subscribePause →
    f.pauseTx.Tracks w.pauseRx fun v => w.pc.sawPause → v = true
  cancel : w.pc ≠ .subscribePause → w.pc ≠ .subscribeCancel →
    f.cancelTx.Tracks w.cancelRx fun v => w.pc.sawRunning → v = false
  returned : w.pc = .returned true → f.cancelTx.value = true

theorem kept_start (f : PauseFlag) : Kept f {} where
  pause h := absurd rfl h
  cancel h := absurd rfl h
  returned := nofun

theorem Kept.of_pause (h : Kept f w) : Kept f.pause w :=
  ⟨fun h1 => (h.pause h1).send _, h.cancel, h.returned⟩

theorem Kept.of_resume (h : Kept f w) : Kept f.resume w :=
  ⟨fun h1 => (h.pause h1).send _, h.cancel, h.returned⟩

theorem Kept.of_cancel (h : Kept f w) : Kept f.cancel w :=
  ⟨h.pause, fun h1 h2 => (h.cancel h1 h2).send _, fun _ => rfl⟩

theorem Kept.next (h : Kept f w) (hs : w.next f = some w') : Kept f w' := by
  obtain ⟨pc, pauseRx, cancelRx⟩ := w
  have hp := h.pause
  have hc := h.cancel
  cases pc with
  | subscribePause =>
    obtain rfl := Option.some.inj hs
    exact ⟨fun _ => Watch.tracks_subscribe.mono fun _ _ => nofun, fun _ h => absurd rfl h, nofun⟩
  | subscribeCancel =>
    obtain rfl := Option.some.inj hs
    exact ⟨fun _ => (hp nofun).mono fun _ _ => nofun,
      fun _ _ => Watch.tracks_subscribe.mono fun _ _ => nofun, nofun⟩
  | checkCancel =>
    simp only [WaitIfPaused.next] at hs
    split at hs <;> obtain rfl := Option.some.inj hs
    next hcancel =>
      exact ⟨fun _ => (hp nofun).mono fun _ _ => nofun,
        fun _ _ => (hc nofun nofun).mono fun _ _ => nofun, fun _ => hcancel⟩
    next hcancel =>
      -- the value read here is what the cancel receiver tracks from now on
      exact ⟨fun _ => (hp nofun).mono fun _ _ => nofun,
        fun _ _ => (hc nofun nofun).borrow fun _ => Bool.eq_false_iff.mpr hcancel, nofun⟩
  | checkPause =>
    simp only [WaitIfPaused.next] at hs
    split at hs <;> obtain rfl := Option.some.inj hs
    next =>
      exact ⟨fun _ => (hp nofun).mono fun _ _ => nofun,
        fun _ _ => (hc nofun nofun).mono fun _ _ => nofun, nofun⟩
    next hpause =>
      exact ⟨fun _ => (hp nofun).borrow fun _ => by simpa using hpause,
        fun _ _ => (hc nofun nofun).mono fun _ hv _ => hv rfl, nofun⟩
  | pollCancel =>
    simp only [WaitIfPaused.next] at hs
    split at hs <;> obtain rfl := Option.some.inj hs
    · exact ⟨fun _ => (hp nofun).mono fun _ hv _ => hv rfl,
        fun _ _ => Watch.tracks_markSeen.mono fun _ _ => nofun, nofun⟩
    · exact ⟨fun _ => (hp nofun).mono fun _ hv _ => hv rfl,
        fun _ _ => (hc nofun nofun).mono fun _ hv _ => hv rfl, nofun⟩
  | pollPause =>
    simp only [WaitIfPaused.next] at hs
    split at hs <;> obtain rfl := Option.some.inj hs
    · exact ⟨fun _ => Watch.tracks_markSeen.mono fun _ _ => nofun,
        fun _ _ => (hc nofun nofun).mono fun _ _ => nofun, nofun⟩
    · exact ⟨fun _ => (hp nofun).mono fun _ hv _ => hv rfl,
        fun _ _ => (hc nofun nofun).mono fun _ hv _ => hv rfl, nofun⟩
  | parked =>
    obtain rfl := Option.some.inj hs
    exact ⟨fun _ => (hp nofun).mono fun _ hv _ => hv rfl,
      fun _ _ => (hc nofun nofun).mono fun _ hv _ => hv rfl, nofun⟩
  | recheckCancel =>
    simp only [WaitIfPaused.next] at hs
    split at hs <;> obtain rfl := Option.some.inj hs
    next hcancel =>
      exact ⟨fun _ => (hp nofun).mono fun _ _ => nofun,
        fun _ _ => (hc nofun nofun).mono fun _ _ => nofun, fun _ => hcancel⟩
    next =>
      exact ⟨fun _ => (hp nofun).mono fun _ _ => nofun,
        fun _ _ => (hc nofun nofun).mono fun _ _ => nofun, nofun⟩
  | returned b => exact absurd hs nofun

/-- A parked call that has seen everything has been told to wait. -/
theorem Kept.parked (h : Kept f w) (hpc : w.pc = .parked)
    (hpause : f.pauseTx.hasChanged w.pauseRx = false)
    (hcancel : f.cancelTx.hasChanged w.cancelRx = false) :
    f.pauseTx.value = true ∧ f.cancelTx.value = false := by
  have hp := h.pause (by rw [hpc]; nofun)
  have hc := h.cancel (by rw [hpc]; nofun) (by rw [hpc]; nofun)
  rw [Watch.hasChanged_eq_false] at hpause hcancel
  constructor
  · apply hp.holds hpause
    rw [hpc]
    rfl
  · apply hc.holds hcancel
    rw [hpc]
    rfl

/-- On a paused flag no call goes on. -/
theorem next_ne_returned (hf : f.pauseTx.value = true) (hs : w.next f = some w') :
    w'.pc ≠ .returned false := by
  obtain ⟨pc, pauseRx, cancelRx⟩ := w
  have hborrow : f.pauseTx.borrow = true := hf
  cases pc with
  | subscribePause | subscribeCancel | parked =>
    obtain rfl := Option.some.inj hs
    nofun
  | checkPause =>
    simp only [WaitIfPaused.next, hborrow] at hs
    obtain rfl := Option.some.inj hs
    nofun
  | checkCancel | pollCancel | pollPause | recheckCancel =>
    simp only [WaitIfPaused.next] at hs
    split at hs <;> obtain rfl := Option.some.inj hs <;> nofun
  | returned b => exact absurd hs nofun

/-- Where a call on a cancelled flag can be. -/
def Pc.cancelling : Pc → Bool
  | .subscribePause | .subscribeCancel | .checkCancel | .returned true => true
  | _ => false

/-- On a cancelled flag a call goes straight to its answer. -/
theorem cancelling_next (hf : f.cancelTx.value = true) (hw : w.pc.cancelling)
    (hs : w.next f = some w') : w'.pc.cancelling := by
  obtain ⟨pc, pauseRx, cancelRx⟩ := w
  cases pc with
  | subscribePause | subscribeCancel =>
    obtain rfl := Option.some.inj hs
    rfl
  | checkCancel =>
    have hborrow : f.cancelTx.borrow = true := hf
    simp only [WaitIfPaused.next, hborrow, if_true] at hs
    obtain rfl := Option.some.inj hs
    rfl
  | returned b => exact absurd hs nofun
  | _ => exact absurd hw nofun

end WaitIfPaused

namespace WaitForCancel

variable {f : PauseFlag} {w w' : WaitForCancel}

def Pc.sawRunning : Pc → Bool
  | .poll | .parked => true
  | _ => false

structure Kept (f : PauseFlag) (w : WaitForCancel) : Prop where
  cancel : w.pc ≠ .subscribe →
    f.cancelTx.Tracks w.cancelRx fun v => w.pc.sawRunning → v = false

theorem kept_start (f : PauseFlag) : Kept f {} := ⟨fun h => absurd rfl h⟩

theorem Kept.of_cancel (h : Kept f w) : Kept f.cancel w := ⟨fun h1 => (h.cancel h1).send _⟩

/-- What a read of the cancel channel tells the call. -/
theorem Kept.read {v : Bool} {pauseRx : Watch.Receiver} (hv : f.cancelTx.borrow = v)
    (h : f.cancelTx.Tracks pauseRx fun _ => True) :
    Kept f ⟨if v then .returned else .poll, pauseRx⟩ := by
  cases v with
  | true => exact ⟨fun _ => h.mono fun _ _ => nofun⟩
  | false => exact ⟨fun _ => h.borrow fun _ => hv⟩

theorem Kept.next (h : Kept f w) (hs : w.next f = some w') : Kept f w' := by
  obtain ⟨pc, cancelRx⟩ := w
  have hc := h.cancel
  cases pc with
  | subscribe =>
    obtain rfl := Option.some.inj hs
    exact ⟨fun _ => Watch.tracks_subscribe.mono fun _ _ => nofun⟩
  | check | recheck =>
    obtain rfl := Option.some.inj hs
    exact .read rfl ((hc nofun).mono fun _ _ => trivial)
  | poll =>
    simp only [WaitForCancel.next] at hs
    split at hs <;> obtain rfl := Option.some.inj hs
    · exact ⟨fun _ => Watch.tracks_markSeen.mono fun _ _ => nofun⟩
    · exact ⟨fun _ => (hc nofun).mono fun _ hv _ => hv rfl⟩
  | parked =>
    obtain rfl := Option.some.inj hs
    exact ⟨fun _ => (hc nofun).mono fun _ hv _ => hv rfl⟩
  | returned => exact absurd hs nofun

theorem Kept.parked (h : Kept f w) (hpc : w.pc = .parked)
    (hcancel : f.cancelTx.hasChanged w.cancelRx = false) : f.cancelTx.value = false := by
  have hc := h.cancel (by rw [hpc]; nofun)
  rw [Watch.hasChanged_eq_false] at hcancel
  apply hc.holds hcancel
  rw [hpc]
  rfl

end WaitForCancel

/-- The invariant of a task and the flag. -/
structure Task.Kept (s : Store) (t : Task) : Prop where
  store : s.flag.cancelTx.value = s.cancelCalled
  ifPaused : ∀ after w, t = .ifPaused after w → WaitIfPaused.Kept s.flag w
  forCancel : ∀ w, t = .forCancel w → WaitForCancel.Kept s.flag w
  after : ∀ w, t = .ifPaused true w → s.cancelCalled = true ∧ w.pc.cancelling

namespace Task

variable {s s' : Store} {t t' : Task} {a : Act}

theorem Kept.of_pause (h : t.Kept s) : t.Kept { s with flag := s.flag.pause } :=
  ⟨h.store, fun after w ht => (h.ifPaused after w ht).of_pause, fun w ht => ⟨(h.forCancel w ht).cancel⟩,
    h.after⟩

theorem Kept.of_resume (h : t.Kept s) : t.Kept { s with flag := s.flag.resume } :=
  ⟨h.store, fun after w ht => (h.ifPaused after w ht).of_resume,
    fun w ht => ⟨(h.forCancel w ht).cancel⟩, h.after⟩

theorem Kept.of_cancel (h : t.Kept s) :
    t.Kept { flag := s.flag.cancel, cancelCalled := true } :=
  ⟨rfl, fun after w ht => (h.ifPaused after w ht).of_cancel,
    fun w ht => (h.forCancel w ht).of_cancel, fun w ht => ⟨rfl, (h.after w ht).2⟩⟩

theorem kept_idle (h : t.Kept s) : Task.idle.Kept s := ⟨h.store, nofun, nofun, nofun⟩

/-- The step of a task, for itself. -/
theorem Kept.step (h : t.Kept s) (hs : step s t a = some (s', t')) : t'.Kept s' := by
  cases a with
  | pause =>
    obtain ⟨rfl, rfl⟩ := Prod.mk.inj (Option.some.inj hs)
    exact h.of_pause
  | resume =>
    obtain ⟨rfl, rfl⟩ := Prod.mk.inj (Option.some.inj hs)
    exact h.of_resume
  | cancel =>
    obtain ⟨rfl, rfl⟩ := Prod.mk.inj (Option.some.inj hs)
    exact h.of_cancel
  | callIfPaused =>
    obtain ⟨-, heq⟩ := guarded_eq_some.mp hs
    obtain ⟨rfl, rfl⟩ := Prod.mk.inj heq
    refine ⟨h.store, fun after w ht => ?_, nofun, fun w ht => ?_⟩
    · obtain ⟨-, rfl⟩ := Task.ifPaused.inj ht
      exact WaitIfPaused.kept_start _
    · obtain ⟨hafter, rfl⟩ := Task.ifPaused.inj ht
      exact ⟨hafter, rfl⟩
  | callForCancel =>
    obtain ⟨-, heq⟩ := guarded_eq_some.mp hs
    obtain ⟨rfl, rfl⟩ := Prod.mk.inj heq
    refine ⟨h.store, nofun, fun w ht => ?_, nofun⟩
    obtain rfl := Task.forCancel.inj ht
    exact WaitForCancel.kept_start _
  | poll =>
    cases t with
    | idle => exact absurd hs nofun
    | ifPaused after w =>
      obtain ⟨w', hw', heq⟩ := Option.map_eq_some_iff.mp hs
      obtain ⟨rfl, rfl⟩ := Prod.mk.inj heq
      refine ⟨h.store, fun _ _ ht => ?_, nofun, fun _ ht => ?_⟩
      · obtain ⟨-, rfl⟩ := Task.ifPaused.inj ht
        exact (h.ifPaused after w rfl).next hw'
      · obtain ⟨rfl, rfl⟩ := Task.ifPaused.inj ht
        obtain ⟨hcalled, hpc⟩ := h.after w rfl
        exact ⟨hcalled, WaitIfPaused.cancelling_next (h.store.trans hcalled) hpc hw'⟩
    | forCancel w =>
      obtain ⟨w', hw', heq⟩ := Option.map_eq_some_iff.mp hs
      obtain ⟨rfl, rfl⟩ := Prod.mk.inj heq
      refine ⟨h.store, nofun, fun _ ht => ?_, nofun⟩
      obtain rfl := Task.forCancel.inj ht
      exact (h.forCancel w rfl).next hw'
  | drop =>
    obtain ⟨rfl, rfl⟩ := Prod.mk.inj (Option.some.inj hs)
    exact kept_idle h

/-- The step of another task touches a task through the three sends only. -/
theorem Kept.others {u u' : Task} (h : t.Kept s) (hs : Flag.step s u a = some (s', u')) :
    t.Kept s' := by
  cases a with
  | pause =>
    obtain ⟨rfl, -⟩ := Prod.mk.inj (Option.some.inj hs)
    exact h.of_pause
  | resume =>
    obtain ⟨rfl, -⟩ := Prod.mk.inj (Option.some.inj hs)
    exact h.of_resume
  | cancel =>
    obtain ⟨rfl, -⟩ := Prod.mk.inj (Option.some.inj hs)
    exact h.of_cancel
  | callIfPaused | callForCancel =>
    obtain ⟨-, heq⟩ := guarded_eq_some.mp hs
    exact (Prod.mk.inj heq).1 ▸ h
  | poll =>
    cases u with
    | idle => exact absurd hs nofun
    | ifPaused | forCancel =>
      obtain ⟨_, -, heq⟩ := Option.map_eq_some_iff.mp hs
      exact (Prod.mk.inj heq).1 ▸ h
  | drop => exact (Prod.mk.inj (Option.some.inj hs)).1 ▸ h

end Task

/-- Every interleaving of the tasks. -/
def always : System ι Store Task → ι × Act → Prop := fun _ _ => True

variable [DecidableEq ι] {n : System ι Store Task}

theorem kept_of_reach (hreach : (tasks ι).machine.Reach always (start ι) n) (i : ι) :
    (n.parts i).Kept n.store := by
  refine hreach.invariant (I := fun n => ∀ i, (n.parts i).Kept n.store) ?_ ?_ i
  · exact fun _ => ⟨rfl, nofun, nofun, nofun⟩
  · intro n a n' h _ hs
    apply Components.step_each (fun _ s t => t.Kept s) hs
    · exact fun s t hstep => (h a.1).step hstep
    · exact fun s t j _ hstep => (h j).others hstep

/-- **No wakeup is lost, and cancel wins.** -/
theorem no_lost_wakeup (n : System ι Store Task)
    (hreach : (tasks ι).machine.Reach always (start ι) n) (i : ι) :
    (∀ after w, n.parts i = .ifPaused after w → w.pc = .parked →
      n.store.flag.pauseTx.hasChanged w.pauseRx = false →
      n.store.flag.cancelTx.hasChanged w.cancelRx = false →
      n.store.flag.pauseTx.value = true ∧ n.store.flag.cancelTx.value = false) ∧
    (∀ w, n.parts i = .forCancel w → w.pc = .parked →
      n.store.flag.cancelTx.hasChanged w.cancelRx = false →
      n.store.flag.cancelTx.value = false) ∧
    (∀ after w, n.parts i = .ifPaused after w → w.pc = .returned true →
      n.store.cancelCalled = true) ∧
    (∀ w b, n.parts i = .ifPaused true w → w.pc = .returned b → b = true) := by
  have h := kept_of_reach hreach i
  refine ⟨fun after w hw hpc hp hc => ?_, fun w hw hpc hc => ?_, fun after w hw hpc => ?_,
    fun w b hw hpc => ?_⟩
  · exact (h.ifPaused after w hw).parked hpc hp hc
  · exact (h.forCancel w hw).parked hpc hc
  · exact h.store.symm.trans ((h.ifPaused after w hw).returned hpc)
  · have hcancelling := (h.after w hw).2
    rw [hpc] at hcancelling
    cases b with
    | true => rfl
    | false => exact absurd hcancelling nofun

/-- Of two tasks, one pauses the flag and the other waits on it. -/
def pausedWait : System Bool Store Task :=
  ((tasks Bool).machine.run (start Bool)
    ((false, .pause) :: (true, .callIfPaused) :: List.replicate 6 (true, .poll))).get rfl

theorem pausedWait_waits :
    pausedWait.store.flag.pauseTx.value = true ∧ pausedWait.store.flag.cancelTx.value = false :=
  (no_lost_wakeup pausedWait
    (Machine.reach_of_run (fun _ _ _ => trivial) (Option.some_get rfl).symm) true).1
    false ⟨.parked, ⟨1⟩, ⟨0⟩⟩ rfl rfl rfl rfl

end P2PTransfer.Flag
