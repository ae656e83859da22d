import P2PTransfer.Lib.Run
import P2PTransfer.Transfer.Metadata

/-!
# The pending requests

`PendingRequests` keeps the sender of a oneshot channel under the id of each request. A handler
keeps the receiver and waits for an answer, for 60 seconds at most. Only `respond` takes an entry
out of the map, and `register` replaces one, so that the entry of a handler that has left stays.

## Main definitions

- `PendingRequests` — the map and the receivers of its channels
- `PendingRequests.register`, `PendingRequests.respond` — the methods
- `pendingRequests` — every interleaving of the methods and of handlers that leave
- `PendingRequests.Exact` — the map is what awaits an answer

## Main results

- `exact_iff` — the map is exact where every receiver in it still waits
- `pending_exact` — the map is exact in a run as long as no waiting handler leaves
-/

namespace P2PTransfer.Pending

open Transition

/-- What has become of a receiver. It is closed when its sender was dropped. -/
inductive Status where
  | waiting
  | answered (accepted : Bool)
  | closed
  | timedOut
  | dropped
deriving DecidableEq

/-- A receiver and the id that it was registered under. -/
structure Receiver where
  id : Text
  status : Status := .waiting
deriving DecidableEq

/-- The map of senders by the number of their channel, the receivers by theirs, and the numbers
of the channels that an answer has gone through. -/
structure PendingRequests where
  inner : Text → Option Nat := fun _ => none
  receivers : Nat → Option Receiver := fun _ => none
  next : Nat := 0
  delivered : List Nat := []

namespace PendingRequests

/-- The receiver of the channel `k` waits for an answer to `id`. -/
def WaitsFor (s : PendingRequests) (id : Text) (k : Nat) : Prop := s.receivers k = some ⟨id, .waiting⟩

/-- `pending_ids` -/
def Lists (s : PendingRequests) (id : Text) : Prop := (s.inner id).isSome

/-- A receiver that waits ceases to do so. -/
def settle (s : PendingRequests) (k : Nat) (status : Status) : Nat → Option Receiver :=
  match s.receivers k with
  | some ⟨id, .waiting⟩ => Function.update s.receivers k (some ⟨id, status⟩)
  | _ => s.receivers

/-- The sender of a channel is dropped. -/
def dropSender (s : PendingRequests) : Option Nat → Nat → Option Receiver
  | some k => s.settle k .closed
  | none => s.receivers

/-- `register` makes a channel. A sender that it replaces is dropped. -/
def register (s : PendingRequests) (id : Text) : PendingRequests :=
  { s with
    inner := Function.update s.inner id (some s.next)
    receivers := Function.update (s.dropSender (s.inner id)) s.next (some ⟨id, .waiting⟩)
    next := s.next + 1 }

/-- `oneshot::Sender::send`. The answer is lost when nobody waits for it. -/
def send (s : PendingRequests) (k : Nat) (accepted : Bool) : PendingRequests :=
  match s.receivers k with
  | some ⟨_, .waiting⟩ =>
    { s with receivers := s.settle k (.answered accepted), delivered := s.delivered ++ [k] }
  | _ => s

/-- `respond` and what it returns. -/
def respond (s : PendingRequests) (id : Text) (accepted : Bool) : Bool × PendingRequests :=
  match s.inner id with
  | some k => (true, ({ s with inner := Function.update s.inner id none }).send k accepted)
  | none => (false, s)

end PendingRequests

inductive PendingAct where
  | register (id : Text)
  | respond (id : Text) (accepted : Bool)
  | timeout (k : Nat)
  | drop (k : Nat)
deriving DecidableEq

/-- A handler goes away without an answer. -/
def PendingAct.leaves : PendingAct → Bool
  | .timeout _ | .drop _ => true
  | _ => false

namespace PendingRequests

def isWaiting (s : PendingRequests) (k : Nat) : Bool :=
  decide ((s.receivers k).map Receiver.status = some .waiting)

/-- A handler that waits runs into its timeout, or is dropped with its connection. -/
def step (s : PendingRequests) : PendingAct → Option PendingRequests
  | .register id => some (s.register id)
  | .respond id accepted => some (s.respond id accepted).2
  | .timeout k => guarded (s.isWaiting k) { s with receivers := s.settle k .timedOut }
  | .drop k => guarded (s.isWaiting k) { s with receivers := s.settle k .dropped }

end PendingRequests

def pendingRequests : Machine PendingRequests PendingAct := ⟨PendingRequests.step⟩

namespace PendingRequests

/-- The map is exactly what awaits an answer, and an answer goes to who awaits it. -/
structure Exact (s : PendingRequests) : Prop where
  pending : ∀ id, s.Lists id ↔ ∃ k, s.WaitsFor id k
  respond : ∀ id accepted, (s.respond id accepted).1 = true ↔ ∃ k, s.WaitsFor id k ∧
    (s.respond id accepted).2.receivers k = some ⟨id, .answered accepted⟩ ∧
    (s.respond id accepted).2.delivered = s.delivered ++ [k]
  once : s.delivered.Nodup

/-- What holds in every run. -/
structure Kept (s : PendingRequests) : Prop where
  entry : ∀ id k, s.inner id = some k → ∃ status, s.receivers k = some ⟨id, status⟩
  waiting : ∀ id k, s.WaitsFor id k → s.inner id = some k
  fresh : ∀ k, s.next ≤ k → s.receivers k = none
  delivered : ∀ k ∈ s.delivered, ∃ id accepted, s.receivers k = some ⟨id, .answered accepted⟩
  once : s.delivered.Nodup

theorem settle_of_waitsFor {s : PendingRequests} {id : Text} {k : Nat} (h : s.WaitsFor id k)
    (status : Status) : s.settle k status = Function.update s.receivers k (some ⟨id, status⟩) := by
  rw [settle, h]

/-- What a receiver is after another one has been settled. -/
theorem settle_cases (s : PendingRequests) (k j : Nat) (status : Status) :
    s.settle k status j = s.receivers j ∨
      j = k ∧ ∃ id, s.WaitsFor id k ∧ s.settle k status j = some ⟨id, status⟩ := by
  by_cases hwaits : ∃ id, s.WaitsFor id k
  · obtain ⟨id, hk⟩ := hwaits
    rw [settle_of_waitsFor hk]
    by_cases hj : j = k
    · exact .inr ⟨hj, id, hk, by rw [hj, Function.update_self]⟩
    · exact .inl (Function.update_of_ne hj ..)
  · refine .inl ?_
    unfold settle
    cases hk : s.receivers k with
    | none => rfl
    | some r =>
      obtain ⟨id, old⟩ := r
      cases old with
      | waiting => exact absurd ⟨id, hk⟩ hwaits
      | _ => rfl

theorem isWaiting_iff {s : PendingRequests} {k : Nat} :
    s.isWaiting k ↔ ∃ id, s.WaitsFor id k := by
  simp only [isWaiting, decide_eq_true_eq, Option.map_eq_some_iff, WaitsFor]
  constructor
  · rintro ⟨⟨id, status⟩, hk, rfl⟩
    exact ⟨id, hk⟩
  · rintro ⟨id, hk⟩
    exact ⟨_, hk, rfl⟩

/-- One receiver has one id and one status. -/
theorem receiver_unique {s : PendingRequests} {id id' : Text} {k : Nat} {status status' : Status}
    (h : s.receivers k = some ⟨id, status⟩) (h' : s.receivers k = some ⟨id', status'⟩) :
    id = id' ∧ status = status' := by
  simpa using h.symm.trans h'

/-- A handler that leaves keeps what holds in every run. -/
theorem Kept.settle {s : PendingRequests} (h : s.Kept) (k : Nat) {status : Status}
    (hstatus : status ≠ .waiting) : Kept { s with receivers := s.settle k status } := by
  constructor
  case once => exact h.once
  case entry =>
    intro id j hj
    obtain ⟨old, hold⟩ := h.entry id j hj
    rcases s.settle_cases k j status with hsame | ⟨rfl, id', hid', hnew⟩
    · exact ⟨old, hsame.trans hold⟩
    · obtain ⟨rfl, -⟩ := receiver_unique hid' hold
      exact ⟨status, hnew⟩
  case waiting =>
    intro id j hj
    have hj : s.settle k status j = some ⟨id, .waiting⟩ := hj
    rcases s.settle_cases k j status with hsame | ⟨rfl, id', -, hnew⟩
    · exact h.waiting id j (hsame.symm.trans hj)
    · rw [hnew] at hj
      simp [hstatus] at hj
  case fresh =>
    intro j hj
    rcases s.settle_cases k j status with hsame | ⟨rfl, id', hid', -⟩
    · exact hsame.trans (h.fresh j hj)
    · rw [WaitsFor, h.fresh j hj] at hid'
      cases hid'
  case delivered =>
    intro j hj
    obtain ⟨id, accepted, hid⟩ := h.delivered j hj
    rcases s.settle_cases k j status with hsame | ⟨rfl, id', hid', -⟩
    · exact ⟨id, accepted, hsame.trans hid⟩
    · obtain ⟨-, hstatus'⟩ := receiver_unique hid' hid
      cases hstatus'

theorem Kept.start : Kept {} := by
  constructor <;> simp [WaitsFor]

theorem send_eq {s : PendingRequests} {id : Text} {k : Nat} (h : s.WaitsFor id k) (accepted : Bool) :
    s.send k accepted = { s with
      receivers := Function.update s.receivers k (some ⟨id, .answered accepted⟩)
      delivered := s.delivered ++ [k] } := by
  rw [send, h]
  dsimp only
  rw [settle_of_waitsFor h]

/-- An answer to nobody changes nothing. -/
theorem send_of_not_waiting {s : PendingRequests} {k : Nat} (h : ∀ id, ¬ s.WaitsFor id k)
    (accepted : Bool) : s.send k accepted = s := by
  unfold send
  cases hk : s.receivers k with
  | none => rfl
  | some r =>
    obtain ⟨id, old⟩ := r
    cases old with
    | waiting => exact absurd hk (h id)
    | _ => rfl

theorem Kept.register {s : PendingRequests} (h : s.Kept) (id : Text) : (s.register id).Kept := by
  -- the receiver that is replaced is closed first
  have hclosed : Kept { s with receivers := s.dropSender (s.inner id) } := by
    cases s.inner id with
    | none => exact h
    | some k => exact h.settle k (by simp)
  have hold : ∀ k, s.dropSender (s.inner id) k ≠ some ⟨id, .waiting⟩ := by
    intro k hk
    have hinner : s.inner id = some k := hclosed.waiting id k hk
    rw [hinner, dropSender] at hk
    rcases s.settle_cases k k .closed with hsame | ⟨-, id', -, hnew⟩
    · have hwaits : s.WaitsFor id k := hsame.symm.trans hk
      rw [settle_of_waitsFor hwaits, Function.update_self] at hk
      simp at hk
    · rw [hnew] at hk
      simp at hk
  have hnext : s.dropSender (s.inner id) s.next = none := hclosed.fresh s.next le_rfl
  constructor
  case once => exact hclosed.once
  case entry =>
    intro id' j hj
    by_cases hid : id' = id
    · subst hid
      obtain rfl : s.next = j := by simpa [PendingRequests.register] using hj
      exact ⟨.waiting, Function.update_self ..⟩
    · have hj : s.inner id' = some j := by simpa [PendingRequests.register, hid] using hj
      obtain ⟨status, hstatus⟩ := hclosed.entry id' j hj
      have hne : j ≠ s.next := by
        rintro rfl
        exact absurd (hnext.symm.trans hstatus) (by simp)
      exact ⟨status, (Function.update_of_ne hne ..).trans hstatus⟩
  case waiting =>
    intro id' j hj
    by_cases hj' : j = s.next
    · subst hj'
      obtain rfl : id = id' := by simpa [WaitsFor, PendingRequests.register] using hj
      exact Function.update_self ..
    · have hj : s.dropSender (s.inner id) j = some ⟨id', .waiting⟩ := by
        simpa [WaitsFor, PendingRequests.register, hj'] using hj
      have hne : id' ≠ id := by
        rintro rfl
        exact hold j hj
      exact (Function.update_of_ne hne ..).trans (hclosed.waiting id' j hj)
  case fresh =>
    intro j hj
    have hne : j ≠ s.next := Nat.ne_of_gt hj
    exact (Function.update_of_ne hne ..).trans (hclosed.fresh j (Nat.le_of_succ_le hj))
  case delivered =>
    intro j hj
    obtain ⟨id', accepted, hid⟩ := hclosed.delivered j hj
    have hne : j ≠ s.next := by
      rintro rfl
      exact absurd (hnext.symm.trans hid) (by simp)
    exact ⟨id', accepted, (Function.update_of_ne hne ..).trans hid⟩

/-- An entry leaves the map. -/
theorem Kept.remove {s : PendingRequests} (h : s.Kept) {id : Text}
    (hid : ∀ k, ¬ s.WaitsFor id k) : Kept { s with inner := Function.update s.inner id none } := by
  constructor
  case fresh => exact h.fresh
  case delivered => exact h.delivered
  case once => exact h.once
  case entry =>
    intro id' j hj
    have hne : id' ≠ id := by
      rintro rfl
      simp at hj
    exact h.entry id' j (by simpa [hne] using hj)
  case waiting =>
    intro id' j hj
    have hne : id' ≠ id := by
      rintro rfl
      exact hid j hj
    exact (Function.update_of_ne hne ..).trans (h.waiting id' j hj)

/-- What `respond` does: nothing, or an entry goes and its receiver is answered if it waits. -/
theorem Kept.respond_cases {s : PendingRequests} (h : s.Kept) (id : Text) (accepted : Bool) :
    (s.inner id = none ∧ s.respond id accepted = (false, s)) ∨
    ∃ k, s.inner id = some k ∧
      ((s.WaitsFor id k ∧ s.respond id accepted = (true, { s with
          inner := Function.update s.inner id none
          receivers := Function.update s.receivers k (some ⟨id, .answered accepted⟩)
          delivered := s.delivered ++ [k] })) ∨
        ((∀ j, ¬ s.WaitsFor id j) ∧ s.respond id accepted = (true, { s with
          inner := Function.update s.inner id none }))) := by
  cases hk : s.inner id with
  | none => exact .inl ⟨rfl, by rw [PendingRequests.respond, hk]⟩
  | some k =>
    refine .inr ⟨k, rfl, ?_⟩
    by_cases hwaits : s.WaitsFor id k
    · refine .inl ⟨hwaits, ?_⟩
      rw [PendingRequests.respond, hk]
      dsimp only
      rw [send_eq (s := { s with inner := Function.update s.inner id none }) hwaits]
    · refine .inr ⟨fun j hj => ?_, ?_⟩
      · obtain rfl := Option.some.inj ((h.waiting id j hj).symm.trans hk)
        exact hwaits hj
      · have hnobody : ∀ id', ¬ s.WaitsFor id' k := by
          intro id' hid'
          obtain ⟨status, hstatus⟩ := h.entry id k hk
          obtain ⟨rfl, -⟩ := receiver_unique hid' hstatus
          exact hwaits hid'
        rw [PendingRequests.respond, hk]
        dsimp only
        rw [send_of_not_waiting (s := { s with inner := Function.update s.inner id none }) hnobody]

theorem Kept.respond {s : PendingRequests} (h : s.Kept) (id : Text) (accepted : Bool) :
    (s.respond id accepted).2.Kept := by
  rcases h.respond_cases id accepted with ⟨-, hr⟩ | ⟨k, hk, ⟨hwaits, hr⟩ | ⟨hnobody, hr⟩⟩
  · rw [hr]
    exact h
  · rw [hr]
    -- who still waits has not been answered before
    have hnew : ∀ j ∈ s.delivered, j ≠ k := by
      rintro j hj rfl
      obtain ⟨id', b, hid⟩ := h.delivered j hj
      obtain ⟨-, hstatus⟩ := receiver_unique hwaits hid
      cases hstatus
    constructor
    case entry =>
      intro id' j hj
      have hid : id' ≠ id := by
        rintro rfl
        simp at hj
      obtain ⟨status, hstatus⟩ := h.entry id' j (by simpa [hid] using hj)
      have hne : j ≠ k := by
        rintro rfl
        exact hid (receiver_unique hstatus hwaits).1
      exact ⟨status, (Function.update_of_ne hne ..).trans hstatus⟩
    case waiting =>
      intro id' j hj
      have hne : j ≠ k := by
        rintro rfl
        simp [WaitsFor] at hj
      have hentry : s.inner id' = some j := h.waiting id' j (by simpa [WaitsFor, hne] using hj)
      have hid : id' ≠ id := by
        rintro rfl
        exact hne (Option.some.inj (hentry.symm.trans hk))
      exact (Function.update_of_ne hid ..).trans hentry
    case fresh =>
      intro j hj
      have hne : j ≠ k := by
        rintro rfl
        exact absurd ((h.fresh j hj).symm.trans hwaits) (by simp)
      exact (Function.update_of_ne hne ..).trans (h.fresh j hj)
    case delivered =>
      intro j hj
      rcases List.mem_append.mp hj with hj | hj
      · obtain ⟨id', b, hid⟩ := h.delivered j hj
        exact ⟨id', b, (Function.update_of_ne (hnew j hj) ..).trans hid⟩
      · obtain rfl := List.mem_singleton.mp hj
        exact ⟨id, accepted, Function.update_self ..⟩
    case once =>
      refine List.nodup_append.mpr ⟨h.once, List.nodup_singleton k, ?_⟩
      intro j hj j' hj'
      rw [List.mem_singleton.mp hj']
      exact hnew j hj
  · rw [hr]
    exact h.remove hnobody

theorem Kept.step {s t : PendingRequests} {a : PendingAct} (h : s.Kept)
    (hs : pendingRequests.step s a = some t) : t.Kept := by
  cases a with
  | register id =>
    obtain rfl := Option.some.inj hs
    exact h.register id
  | respond id accepted =>
    obtain rfl := Option.some.inj hs
    exact h.respond id accepted
  | timeout k =>
    obtain ⟨-, rfl⟩ := guarded_eq_some.mp hs
    exact h.settle k (by simp)
  | drop k =>
    obtain ⟨-, rfl⟩ := guarded_eq_some.mp hs
    exact h.settle k (by simp)

/-- Every entry is that of a receiver that waits. -/
def Awaited (s : PendingRequests) : Prop := ∀ id k, s.inner id = some k → s.WaitsFor id k

/-- **One state.** The map is exact where every receiver in it still waits. -/
theorem exact_iff {s : PendingRequests} (h : s.Kept) : s.Exact ↔ s.Awaited := by
  constructor
  · intro hexact id k hk
    obtain ⟨j, hj⟩ := (hexact.pending id).mp (by rw [Lists, hk]; rfl)
    obtain rfl := Option.some.inj ((h.waiting id j hj).symm.trans hk)
    exact hj
  · intro hall
    refine ⟨fun id => ⟨fun hlist => ?_, ?_⟩, fun id accepted => ⟨fun hr => ?_, ?_⟩, h.once⟩
    · obtain ⟨k, hk⟩ := Option.isSome_iff_exists.mp hlist
      exact ⟨k, hall id k hk⟩
    · rintro ⟨k, hk⟩
      rw [Lists, h.waiting id k hk]
      rfl
    · rcases h.respond_cases id accepted with ⟨-, he⟩ | ⟨k, hk, ⟨hwaits, he⟩ | ⟨hnobody, -⟩⟩
      · rw [he] at hr
        cases hr
      · rw [he]
        exact ⟨k, hwaits, Function.update_self .., rfl⟩
      · exact absurd (hall id k hk) (hnobody k)
    · rintro ⟨k, hwaits, -⟩
      rw [PendingRequests.respond, h.waiting id k hwaits]

theorem Awaited.step {s t : PendingRequests} {a : PendingAct} (h : s.Kept) (hall : s.Awaited)
    (ha : a.leaves = false) (hs : pendingRequests.step s a = some t) : t.Awaited := by
  cases a with
  | timeout k => cases ha
  | drop k => cases ha
  | register id =>
    obtain rfl := Option.some.inj hs
    intro id' j hj
    by_cases hid : id' = id
    · subst hid
      obtain rfl : s.next = j := by simpa [PendingRequests.register] using hj
      exact Function.update_self ..
    · have hentry : s.inner id' = some j := by simpa [PendingRequests.register, hid] using hj
      have hwaits := hall id' j hentry
      have hne : j ≠ s.next := by
        rintro rfl
        exact absurd (hwaits.symm.trans (h.fresh s.next le_rfl)) (by simp)
      refine (Function.update_of_ne hne ..).trans ?_
      cases hk : s.inner id with
      | none => exact hwaits
      | some k =>
        rcases s.settle_cases k j .closed with hsame | ⟨rfl, -⟩
        · exact hsame.trans hwaits
        · -- one receiver waits for one id
          exact absurd (receiver_unique hwaits (hall id j hk)).1 hid
  | respond id accepted =>
    obtain rfl := Option.some.inj hs
    rcases h.respond_cases id accepted with ⟨-, hr⟩ | ⟨k, hk, ⟨hwaits, hr⟩ | ⟨hnobody, -⟩⟩
    · rw [hr]
      exact hall
    · rw [hr]
      intro id' j hj
      have hid : id' ≠ id := by
        rintro rfl
        simp at hj
      have hentry : s.inner id' = some j := by simpa [hid] using hj
      have hwaits' := hall id' j hentry
      have hne : j ≠ k := by
        rintro rfl
        exact hid (receiver_unique hwaits' hwaits).1
      exact (Function.update_of_ne hne ..).trans hwaits'
    · exact absurd (hall id k hk) (hnobody k)

/-- A waiting handler that leaves stays in the map. -/
theorem not_awaited_of_leaves {s t : PendingRequests} {a : PendingAct} (h : s.Kept)
    (ha : a.leaves) (hs : pendingRequests.step s a = some t) : ¬ t.Awaited := by
  have hgone : ∀ k status, status ≠ Status.waiting → s.isWaiting k →
      ¬ Awaited { s with receivers := s.settle k status } := by
    intro k status hstatus hk hall
    obtain ⟨id, hwaits⟩ := isWaiting_iff.mp hk
    have hlater : s.settle k status k = some ⟨id, .waiting⟩ := hall id k (h.waiting id k hwaits)
    rw [settle_of_waitsFor hwaits, Function.update_self] at hlater
    simp only [Option.some.injEq, Receiver.mk.injEq, true_and] at hlater
    exact hstatus hlater
  cases a with
  | register id => cases ha
  | respond id accepted => cases ha
  | timeout k =>
    obtain ⟨hk, rfl⟩ := guarded_eq_some.mp hs
    exact hgone k .timedOut (by simp) hk
  | drop k =>
    obtain ⟨hk, rfl⟩ := guarded_eq_some.mp hs
    exact hgone k .dropped (by simp) hk

/-- A step keeps the map exact exactly if no handler leaves. -/
theorem exact_step_iff {s t : PendingRequests} {a : PendingAct} (h : s.Kept) (hexact : s.Exact)
    (hs : pendingRequests.step s a = some t) : t.Exact ↔ a.leaves = false := by
  rw [exact_iff (h.step hs)]
  constructor
  · intro hawaited
    by_contra hleaves
    exact not_awaited_of_leaves h (by simpa using hleaves) hs hawaited
  · intro ha
    exact Awaited.step h ((exact_iff h).mp hexact) ha hs

end PendingRequests

/-- **The pending list.** The map is exactly what awaits an answer, in every state of a run,
exactly if no handler leaves in it while it waits. -/
theorem pending_exact {acts : List PendingAct} {s : PendingRequests}
    (h : pendingRequests.run {} acts = some s) :
    pendingRequests.Always PendingRequests.Exact {} acts ↔ ∀ a ∈ acts, a.leaves = false := by
  rw [← Machine.meets_iff_forall h]
  apply Machine.always_iff_meets (K := PendingRequests.Kept) _ _ PendingRequests.Kept.start _ h
  · intro u a v hu hv
    exact hu.step hv
  · intro u a v hu hexact hv
    exact PendingRequests.exact_step_iff hu hexact hv
  · rw [PendingRequests.exact_iff PendingRequests.Kept.start]
    intro id k hk
    cases hk

/-- One request is answered, and the next one waits. -/
theorem pending_exact_answered :
    pendingRequests.Always PendingRequests.Exact {}
        [.register ['a'], .register ['b'], .respond ['a'] true] ↔
      ∀ a ∈ [PendingAct.register ['a'], .register ['b'], .respond ['a'] true], a.leaves = false := by
  obtain ⟨s, hs⟩ : ∃ s, pendingRequests.run {}
      [.register ['a'], .register ['b'], .respond ['a'] true] = some s := ⟨_, rfl⟩
  exact pending_exact hs

/-- A request times out, and is then answered: the answer is taken for delivered. -/
theorem timeout_not_exact : ¬ ∀ s, pendingRequests.Reach (fun _ _ => True) {} s → s.Exact := by
  intro h
  obtain ⟨s, hs, hlists, hnobody⟩ : ∃ s,
      pendingRequests.run {} [.register ['a'], .timeout 0] = some s ∧ s.Lists ['a'] ∧
        s.receivers = Function.update (Function.update (fun _ => none) 0
          (some ⟨['a'], .waiting⟩)) 0 (some ⟨['a'], .timedOut⟩) := ⟨_, rfl, rfl, rfl⟩
  have hreach : pendingRequests.Reach (fun _ _ => True) {} s :=
    Machine.reach_of_run (fun _ _ _ => trivial) hs
  obtain ⟨k, hk⟩ := ((h s hreach).pending ['a']).mp hlists
  rw [PendingRequests.WaitsFor, hnobody] at hk
  by_cases hk0 : k = 0
  · subst hk0
    simp at hk
  · simp [hk0] at hk

end P2PTransfer.Pending
