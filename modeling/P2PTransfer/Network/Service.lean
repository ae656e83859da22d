import P2PTransfer.Lib.Run
import P2PTransfer.Network.Peers

/-!
# Starting and stopping the Rust service

The three tasks of `DiscoveryService::start` look at the flag `running` only at the head of their
loops. `stop` takes the flag back and waits for one task after the other. The broadcaster and the
cleanup task wait for timers and for sends that come to an end. The listener waits for a datagram,
which nobody has to send.

## Main definitions

- `Service`, `Act`, `service` — the tasks, the socket, the map and `stop`
- `Moves` — a task has finished or can take its next step
- `Service.Parked` — the listener waits and nothing has arrived

## Main results

- `peers_history` — the map of a running service is that of a history
- `stop_moves_iff`, `stop_returns_iff` — when `stop` cannot get stuck
-/

namespace P2PTransfer.Discovery

open Transition

inductive BroadcasterPc where
  | check
  | multicast
  | broadcast
  | sleep
  | finished
deriving DecidableEq

/-- In `handle` the listener has a datagram and has yet to take the lock of the map. -/
inductive ListenerPc where
  | check
  | receive
  | handle (src : Text) (d : Datagram)
  | finished

inductive CleanerPc where
  | check
  | sleep
  | retain
  | finished
deriving DecidableEq

inductive StopPc where
  | idle
  | joinBroadcaster
  | joinListener
  | joinCleaner
  | returned
deriving DecidableEq

/-- What the socket has for its reader. -/
inductive Incoming where
  | datagram (src : Text) (d : Datagram)
  | error

/-- The service after `start`. -/
structure Service where
  running : Bool := true
  inbox : List Incoming := []
  peers : PeerTable := fun _ => none
  now : Nat := 0
  broadcaster : BroadcasterPc := .check
  listener : ListenerPc := .check
  cleaner : CleanerPc := .check
  stopping : StopPc := .idle

inductive Act where
  | checkBroadcaster
  | sendMulticast
  | sendBroadcast
  | wakeBroadcaster
  | checkListener
  | receive
  | handle
  | checkCleaner
  | wakeCleaner
  | retain
  | stop
  | join
  | arrive (item : Incoming)
  | tick

inductive Task where
  | broadcaster
  | listener
  | cleaner
deriving DecidableEq

/-- The task that takes a step. -/
def Act.task : Act → Option Task
  | .checkBroadcaster | .sendMulticast | .sendBroadcast | .wakeBroadcaster => some .broadcaster
  | .checkListener | .receive | .handle => some .listener
  | .checkCleaner | .wakeCleaner | .retain => some .cleaner
  | _ => none

/-- The steps without news from the network and the clock. -/
def Act.quiet : Act → Bool
  | .arrive _ | .tick => false
  | _ => true

/-- What the listener does with what it has read. -/
def Incoming.next : Incoming → ListenerPc
  | .datagram src d => .handle src d
  | .error => .check

namespace Service

def finished (s : Service) : Task → Bool
  | .broadcaster => match s.broadcaster with | .finished => true | _ => false
  | .listener => match s.listener with | .finished => true | _ => false
  | .cleaner => match s.cleaner with | .finished => true | _ => false

/-- The task that `stop` waits for has finished, and `stop` goes on. -/
def joined (s : Service) : Option StopPc :=
  match s.stopping with
  | .joinBroadcaster => guarded (s.finished .broadcaster) .joinListener
  | .joinListener => guarded (s.finished .listener) .joinCleaner
  | .joinCleaner => guarded (s.finished .cleaner) .returned
  | _ => none

end Service

/-- One step. The locks of the map are held for single steps, as no task waits while it has one. -/
def step (s : Service) : Act → Option Service
  | .checkBroadcaster => guarded (s.broadcaster = .check)
      { s with broadcaster := if s.running then .multicast else .finished }
  | .sendMulticast => guarded (s.broadcaster = .multicast) { s with broadcaster := .broadcast }
  | .sendBroadcast => guarded (s.broadcaster = .broadcast) { s with broadcaster := .sleep }
  | .wakeBroadcaster => guarded (s.broadcaster = .sleep) { s with broadcaster := .check }
  | .checkListener => match s.listener with
    | .check => some { s with listener := if s.running then .receive else .finished }
    | _ => none
  | .receive => match s.listener, s.inbox with
    | .receive, item :: inbox => some { s with listener := item.next, inbox := inbox }
    | _, _ => none
  | .handle => match s.listener with
    | .handle src d => some { s with listener := .check, peers := s.peers.receive s.now src d }
    | _ => none
  | .checkCleaner => guarded (s.cleaner = .check)
      { s with cleaner := if s.running then .sleep else .finished }
  | .wakeCleaner => guarded (s.cleaner = .sleep) { s with cleaner := .retain }
  | .retain => guarded (s.cleaner = .retain)
      { s with cleaner := .check, peers := s.peers.cleanup s.now }
  | .stop => guarded (s.stopping = .idle)
      { s with running := false, stopping := .joinBroadcaster }
  | .join => s.joined.map fun next => { s with stopping := next }
  | .arrive item => some { s with inbox := s.inbox ++ [item] }
  | .tick => some { s with now := s.now + 1 }

def service : Machine Service Act := ⟨step⟩

/-- A task that has finished, or can take its next step without waiting for the network. -/
def Moves (s : Service) (t : Task) : Prop :=
  s.finished t ∨ ∃ a u, a.task = some t ∧ service.step s a = some u

/-- The listener waits for a datagram, and none has arrived. -/
def Service.Parked (s : Service) : Prop := s.listener = .receive ∧ s.inbox = []

theorem moves_broadcaster (s : Service) : Moves s .broadcaster := by
  cases hpc : s.broadcaster with
  | check => exact .inr ⟨.checkBroadcaster, _, rfl, guarded_eq_some.mpr ⟨hpc, rfl⟩⟩
  | multicast => exact .inr ⟨.sendMulticast, _, rfl, guarded_eq_some.mpr ⟨hpc, rfl⟩⟩
  | broadcast => exact .inr ⟨.sendBroadcast, _, rfl, guarded_eq_some.mpr ⟨hpc, rfl⟩⟩
  | sleep => exact .inr ⟨.wakeBroadcaster, _, rfl, guarded_eq_some.mpr ⟨hpc, rfl⟩⟩
  | finished => exact .inl (by rw [Service.finished, hpc])

theorem moves_cleaner (s : Service) : Moves s .cleaner := by
  cases hpc : s.cleaner with
  | check => exact .inr ⟨.checkCleaner, _, rfl, guarded_eq_some.mpr ⟨hpc, rfl⟩⟩
  | sleep => exact .inr ⟨.wakeCleaner, _, rfl, guarded_eq_some.mpr ⟨hpc, rfl⟩⟩
  | retain => exact .inr ⟨.retain, _, rfl, guarded_eq_some.mpr ⟨hpc, rfl⟩⟩
  | finished => exact .inl (by rw [Service.finished, hpc])

/-- The listener is the only task that may have to wait for the network. -/
theorem moves_listener_iff (s : Service) : Moves s .listener ↔ ¬ s.Parked := by
  constructor
  · rintro (hfin | ⟨a, u, ha, hs⟩) ⟨hpc, hinbox⟩
    · rw [Service.finished, hpc] at hfin
      cases hfin
    · cases a with
      | checkListener => simp [service, step, hpc] at hs
      | receive => simp [service, step, hpc, hinbox] at hs
      | handle => simp [service, step, hpc] at hs
      | _ => cases ha
  · intro h
    cases hpc : s.listener with
    | check => exact .inr ⟨.checkListener, _, rfl, by simp only [service, step, hpc]; rfl⟩
    | receive =>
      cases hinbox : s.inbox with
      | nil => exact absurd ⟨hpc, hinbox⟩ h
      | cons item inbox =>
        exact .inr ⟨.receive, _, rfl, by simp only [service, step, hpc, hinbox]; rfl⟩
    | handle src d => exact .inr ⟨.handle, _, rfl, by simp only [service, step, hpc]; rfl⟩
    | finished => exact .inl (by rw [Service.finished, hpc])

theorem moves_iff (s : Service) : (∀ t, Moves s t) ↔ ¬ s.Parked := by
  constructor
  · exact fun h => (moves_listener_iff s).mp (h .listener)
  · intro h t
    cases t with
    | broadcaster => exact moves_broadcaster s
    | listener => exact (moves_listener_iff s).mpr h
    | cleaner => exact moves_cleaner s

/-- Once the flag is down the listener does not begin to wait. -/
theorem not_parked_step {s t : Service} {a : Act} (hstopped : s.running = false)
    (h : ¬ s.Parked) (hs : service.step s a = some t) : t.running = false ∧ ¬ t.Parked := by
  cases a with
  | checkListener =>
    simp only [service, step] at hs
    split at hs
    · obtain rfl := Option.some.inj hs
      refine ⟨hstopped, fun hp => ?_⟩
      have hpc := hp.1
      simp [hstopped] at hpc
    · cases hs
  | receive =>
    simp only [service, step] at hs
    split at hs
    · next item inbox _ _ =>
      obtain rfl := Option.some.inj hs
      refine ⟨hstopped, fun hp => ?_⟩
      have hpc : item.next = .receive := hp.1
      cases item <;> cases hpc
    · cases hs
  | handle =>
    simp only [service, step] at hs
    split at hs
    · obtain rfl := Option.some.inj hs
      exact ⟨hstopped, fun hp => by cases hp.1⟩
    · cases hs
  | arrive item =>
    obtain rfl := Option.some.inj hs
    exact ⟨hstopped, fun hp => absurd hp.2 (by simp)⟩
  | tick =>
    obtain rfl := Option.some.inj hs
    exact ⟨hstopped, h⟩
  | join =>
    obtain ⟨next, -, rfl⟩ := Option.map_eq_some_iff.mp hs
    exact ⟨hstopped, h⟩
  | stop =>
    obtain ⟨-, rfl⟩ := guarded_eq_some.mp hs
    exact ⟨rfl, h⟩
  | _ =>
    obtain ⟨-, rfl⟩ := guarded_eq_some.mp hs
    exact ⟨hstopped, h⟩

/-- Only `stop` takes the flag back. -/
theorem running_step {s t : Service} {a : Act} (ha : a ≠ .stop) (hs : service.step s a = some t) :
    t.running = s.running := by
  cases a with
  | stop => exact absurd rfl ha
  | checkListener | receive | handle =>
    simp only [service, step] at hs
    split at hs
    · obtain rfl := Option.some.inj hs
      rfl
    · cases hs
  | arrive item =>
    obtain rfl := Option.some.inj hs
    rfl
  | tick =>
    obtain rfl := Option.some.inj hs
    rfl
  | join =>
    obtain ⟨next, -, rfl⟩ := Option.map_eq_some_iff.mp hs
    rfl
  | _ =>
    obtain ⟨-, rfl⟩ := guarded_eq_some.mp hs
    rfl

/-- A step keeps the listener from waiting for nothing exactly if it is no call of `stop` at
such a moment. -/
theorem not_parked_iff {s t : Service} {a : Act} (h : s.running = false → ¬ s.Parked)
    (hs : service.step s a = some t) :
    (t.running = false → ¬ t.Parked) ↔ (a = .stop → ¬ s.Parked) := by
  by_cases ha : a = .stop
  · subst ha
    obtain ⟨-, rfl⟩ := guarded_eq_some.mp hs
    constructor
    · intro hstopped _
      exact hstopped rfl
    · intro hparked _
      exact hparked rfl
  · refine iff_of_true ?_ fun hstop => absurd hstop ha
    intro hrunning
    rw [running_step ha hs] at hrunning
    exact (not_parked_step hrunning (h hrunning) hs).2

/-- **Stopping.** In the states of a run after a call of `stop` every task has finished or can go
on exactly if `stop` is not called while the listener waits on an empty socket. -/
theorem stop_moves_iff {acts : List Act} {s : Service} (h : service.run {} acts = some s) :
    service.Always (fun t => t.running = false → ∀ task, Moves t task) {} acts ↔
      service.Meets (fun t a => a = .stop → ¬ t.Parked) {} acts := by
  have hmoves : (fun t : Service => t.running = false → ∀ task, Moves t task) =
      fun t => t.running = false → ¬ t.Parked := by
    funext t
    rw [moves_iff t]
  rw [hmoves]
  apply Machine.always_iff_meets (K := fun _ => True) _ _ trivial _ h
  · intro _ _ _ _ _
    trivial
  · intro u a v _ hu hv
    exact not_parked_iff hu hv
  · intro hrunning
    cases hrunning

/-- The listener waits on an empty socket when `stop` is called. -/
theorem stop_not_moves : ¬ ∀ s, service.Reach (fun _ _ => True) {} s → s.running = false →
    ∀ t, Moves s t := by
  intro h
  obtain ⟨s, hs, hrunning, hparked⟩ : ∃ s, service.run {} [.checkListener, .stop] = some s ∧
      s.running = false ∧ s.Parked := ⟨_, rfl, rfl, rfl, rfl⟩
  have hreach : service.Reach (fun _ _ => True) {} s :=
    Machine.reach_of_run (fun _ _ _ => trivial) hs
  exact (moves_iff s).mp (h s hreach hrunning) hparked

/-- `stop` is called before the listener has begun to wait. -/
theorem stop_moves_at_once :
    service.Always (fun t => t.running = false → ∀ task, Moves t task) {} [.stop] ↔
      service.Meets (fun t a => a = .stop → ¬ t.Parked) {} [.stop] :=
  stop_moves_iff (s := { running := false, stopping := .joinBroadcaster }) rfl

/-! ### The call of `stop` -/

def BroadcasterPc.rank : BroadcasterPc → Nat
  | .multicast => 4
  | .broadcast => 3
  | .sleep => 2
  | .check => 1
  | .finished => 0

def ListenerPc.rank : ListenerPc → Nat
  | .receive => 3
  | .handle _ _ => 2
  | .check => 1
  | .finished => 0

def CleanerPc.rank : CleanerPc → Nat
  | .sleep => 3
  | .retain => 2
  | .check => 1
  | .finished => 0

def StopPc.rank : StopPc → Nat
  | .idle => 4
  | .joinBroadcaster => 3
  | .joinListener => 2
  | .joinCleaner => 1
  | .returned => 0

/-- What is left to do until `stop` returns. -/
def Service.rank (s : Service) : Nat :=
  s.broadcaster.rank + s.listener.rank + s.cleaner.rank + s.stopping.rank

theorem rank_lower {s t : Service} {a : Act} (hstopped : s.running = false) (ha : a.quiet)
    (hs : service.step s a = some t) : t.rank < s.rank := by
  cases a with
  | arrive item => cases ha
  | tick => cases ha
  | checkListener =>
    simp only [service, step] at hs
    split at hs
    · next hpc =>
      obtain rfl := Option.some.inj hs
      simp [Service.rank, hpc, hstopped, ListenerPc.rank]
    · cases hs
  | receive =>
    simp only [service, step] at hs
    split at hs
    · next item inbox hpc _ =>
      obtain rfl := Option.some.inj hs
      cases item <;> simp [Service.rank, hpc, Incoming.next, ListenerPc.rank]
    · cases hs
  | handle =>
    simp only [service, step] at hs
    split at hs
    · next hpc =>
      obtain rfl := Option.some.inj hs
      simp [Service.rank, hpc, ListenerPc.rank]
    · cases hs
  | join =>
    obtain ⟨next, hnext, rfl⟩ := Option.map_eq_some_iff.mp hs
    have hless : next.rank < s.stopping.rank := by
      unfold Service.joined at hnext
      split at hnext
      · next hpc =>
        obtain ⟨-, rfl⟩ := guarded_eq_some.mp hnext
        simp [hpc, StopPc.rank]
      · next hpc =>
        obtain ⟨-, rfl⟩ := guarded_eq_some.mp hnext
        simp [hpc, StopPc.rank]
      · next hpc =>
        obtain ⟨-, rfl⟩ := guarded_eq_some.mp hnext
        simp [hpc, StopPc.rank]
      · cases hnext
    simp only [Service.rank]
    omega
  | _ =>
    simp only [service, step, guarded_eq_some] at hs
    obtain ⟨hpc, rfl⟩ := hs
    simp [Service.rank, hpc, hstopped, BroadcasterPc.rank, CleanerPc.rank, StopPc.rank]

/-- A call of `stop` that waits for a task that can move is not at its end. -/
theorem stopping_moves {s : Service} (h : ∀ t, Moves s t) (hidle : s.stopping ≠ .idle)
    (hstuck : service.Stuck (fun _ a => a.quiet) s) : s.stopping = .returned := by
  have hfinished : ∀ t, s.finished t := by
    intro t
    rcases h t with hfin | ⟨a, u, ha, hs⟩
    · exact hfin
    · have hquiet : a.quiet := by cases a <;> first | rfl | cases ha
      rw [hstuck a hquiet] at hs
      cases hs
  have hjoin : s.joined = none := by
    have hnone := hstuck .join rfl
    simpa [service, step] using hnone
  unfold Service.joined at hjoin
  split at hjoin
  · exact absurd (hfinished .broadcaster) (guarded_eq_none.mp hjoin)
  · exact absurd (hfinished .listener) (guarded_eq_none.mp hjoin)
  · exact absurd (hfinished .cleaner) (guarded_eq_none.mp hjoin)
  · cases hpc : s.stopping <;> simp_all

/-- A listener that waits on an empty socket holds up `stop`. -/
theorem parked_step {s t : Service} {a : Act} (h : s.Parked)
    (hstop : s.stopping = .joinBroadcaster ∨ s.stopping = .joinListener) (ha : a.quiet)
    (hs : service.step s a = some t) :
    t.Parked ∧ (t.stopping = .joinBroadcaster ∨ t.stopping = .joinListener) := by
  obtain ⟨hpc, hinbox⟩ := h
  cases a with
  | arrive item => cases ha
  | tick => cases ha
  | checkListener => simp [service, step, hpc] at hs
  | receive => simp [service, step, hpc, hinbox] at hs
  | handle => simp [service, step, hpc] at hs
  | join =>
    obtain ⟨next, hnext, rfl⟩ := Option.map_eq_some_iff.mp hs
    refine ⟨⟨hpc, hinbox⟩, ?_⟩
    rcases hstop with hstop | hstop
    · simp only [Service.joined, hstop, guarded_eq_some] at hnext
      exact .inr hnext.2.symm
    · simp [Service.joined, hstop, Service.finished, hpc] at hnext
  | stop =>
    obtain ⟨hidle, -⟩ := guarded_eq_some.mp hs
    rcases hstop with hstop | hstop <;> simp [hidle] at hstop
  | _ =>
    obtain ⟨-, rfl⟩ := guarded_eq_some.mp hs
    exact ⟨⟨hpc, hinbox⟩, hstop⟩

/-- Once `stop` has been called it is not idle again. -/
theorem stopping_step {s t : Service} {a : Act} (h : s.stopping ≠ .idle)
    (hs : service.step s a = some t) : t.stopping ≠ .idle := by
  cases a with
  | join =>
    obtain ⟨next, hnext, rfl⟩ := Option.map_eq_some_iff.mp hs
    unfold Service.joined at hnext
    split at hnext
    · obtain ⟨-, rfl⟩ := guarded_eq_some.mp hnext
      simp
    · obtain ⟨-, rfl⟩ := guarded_eq_some.mp hnext
      simp
    · obtain ⟨-, rfl⟩ := guarded_eq_some.mp hnext
      simp
    · cases hnext
  | stop =>
    obtain ⟨hidle, -⟩ := guarded_eq_some.mp hs
    exact absurd hidle h
  | arrive item =>
    obtain rfl := Option.some.inj hs
    exact h
  | tick =>
    obtain rfl := Option.some.inj hs
    exact h
  | checkListener | receive | handle =>
    simp only [service, step] at hs
    split at hs
    · obtain rfl := Option.some.inj hs
      exact h
    · cases hs
  | _ =>
    obtain ⟨-, rfl⟩ := guarded_eq_some.mp hs
    exact h

/-- Where nothing more arrives, every task takes its last step and `stop` returns, unless the
listener waits on an empty socket when it is called. -/
theorem stop_returns_iff {s t : Service} (hs : service.step s .stop = some t) :
    service.EndsIn (fun _ a => a.quiet) (fun u => u.stopping = .returned) t ↔ ¬ s.Parked := by
  obtain ⟨-, rfl⟩ := guarded_eq_some.mp hs
  constructor
  · intro h hparked
    obtain ⟨u, hreach, -, hreturned⟩ := h.exists_stuck
    have hkeep := hreach.invariant
      (I := fun u => u.Parked ∧ (u.stopping = .joinBroadcaster ∨ u.stopping = .joinListener))
      ⟨hparked, .inl rfl⟩ fun v a w hv ha hstep => parked_step hv.1 hv.2 ha hstep
    rcases hkeep.2 with hstop | hstop <;> rw [hreturned] at hstop <;> cases hstop
  · intro h
    refine Machine.endsIn_of_rank
      (fun u => (u.running = false ∧ ¬ u.Parked) ∧ u.stopping ≠ .idle) Service.rank ?_ ?_ ?_
      ⟨⟨rfl, h⟩, by simp⟩
    · exact fun v a w hv _ hstep => ⟨not_parked_step hv.1.1 hv.1.2 hstep, stopping_step hv.2 hstep⟩
    · exact fun v a w hv ha hstep => rank_lower hv.1.1 ha hstep
    · exact fun v hv hstuck => stopping_moves ((moves_iff v).mpr hv.1.2) hv.2 hstuck

/-! ### The map of a running service -/

/-- The map of a service is that of a history whose clock does not go back. -/
theorem peers_history {s : Service} (h : service.Reach (fun _ _ => True) {} s) :
    ∃ history, s.peers = peersAfter history ∧
      history.Pairwise (fun e e' => e.time ≤ e'.time) ∧ ∀ e ∈ history, e.time ≤ s.now := by
  refine h.invariant (I := fun s => ∃ history, s.peers = peersAfter history ∧
    history.Pairwise (fun e e' => e.time ≤ e'.time) ∧ ∀ e ∈ history, e.time ≤ s.now)
    ⟨[], rfl, .nil, by simp⟩ ?_
  rintro s a t ⟨history, hpeers, hsorted, hle⟩ - hs
  -- a turn of the listener or of the cleanup task comes last
  have hnext : ∀ e : Event, e.time = s.now → ∀ p, p = s.peers.apply e →
      ∃ history, p = peersAfter history ∧
        history.Pairwise (fun e e' => e.time ≤ e'.time) ∧ ∀ e ∈ history, e.time ≤ s.now := by
    rintro e he p rfl
    refine ⟨history ++ [e], ?_, ?_, ?_⟩
    · rw [peersAfter, List.foldl_append, hpeers]
      rfl
    · refine List.pairwise_append.mpr ⟨hsorted, List.pairwise_singleton _ _, fun e' he' f hf => ?_⟩
      rw [List.mem_singleton.mp hf, he]
      exact hle e' he'
    · intro e' he'
      rcases List.mem_append.mp he' with he' | he'
      · exact hle e' he'
      · rw [List.mem_singleton.mp he', he]
  cases a with
  | handle =>
    simp only [service, step] at hs
    split at hs
    · next src d _ =>
      obtain rfl := Option.some.inj hs
      exact hnext (.datagram s.now src d) rfl _ rfl
    · cases hs
  | retain =>
    obtain ⟨-, rfl⟩ := guarded_eq_some.mp hs
    exact hnext (.cleanup s.now) rfl _ rfl
  | tick =>
    obtain rfl := Option.some.inj hs
    exact ⟨history, hpeers, hsorted, fun e he => (hle e he).trans (Nat.le_succ _)⟩
  | arrive item =>
    obtain rfl := Option.some.inj hs
    exact ⟨history, hpeers, hsorted, hle⟩
  | join =>
    obtain ⟨next, -, rfl⟩ := Option.map_eq_some_iff.mp hs
    exact ⟨history, hpeers, hsorted, hle⟩
  | checkListener | receive =>
    simp only [service, step] at hs
    split at hs
    · obtain rfl := Option.some.inj hs
      exact ⟨history, hpeers, hsorted, hle⟩
    · cases hs
  | _ =>
    obtain ⟨-, rfl⟩ := guarded_eq_some.mp hs
    exact ⟨history, hpeers, hsorted, hle⟩

end P2PTransfer.Discovery
