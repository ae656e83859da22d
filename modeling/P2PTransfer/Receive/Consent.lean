import P2PTransfer.Lib.Shared
import P2PTransfer.Alpn.Receiver

/-!
# Consent to incoming QUIC transfers

Any number of connections share the pending requests and the two maps of the transfers,
all keyed by a request id that the peer of each connection has chosen. A user answers the
offer that an announcement shows, and the answer goes to whichever connection the id
leads to.

## Main definitions

- `Offer` — what a connection asks for, and what the user is shown
- `Registries` — the shared maps and the answers that were given
- `connections` — the runs of `handle_incoming_connection` over the maps
- `Fresh` — a connection registers an id that is its own
-/

namespace P2PTransfer.Alpn

open Transition

variable {C : Primitives} {ι : Type*}

/-- A `TransferRequest` with its sender. -/
structure Offer where
  request : TransferRequest
  senderName : Text
  senderNodeId : Text
deriving DecidableEq

def Offer.id (o : Offer) : Text := o.request.requestId

/-- Who waits for the answer to a pending request: a connection, or a transfer of
another kind. -/
inductive Waiter (ι : Type*) where
  | connection (i : ι)
  | other

/-- The answer that a connection got comes with the announcement it was given to. -/
structure Registries (ι : Type*) where
  pending : Text → Option (Waiter ι)
  control : Text → Control
  answers : ι → Option (ι × Bool)

/-- `PendingRequests::register`. A sender that is replaced is dropped. -/
def Registries.register (m : Registries ι) (id : Text) (i : ι) : Registries ι :=
  { m with pending := Function.update m.pending id (some (.connection i)) }

variable [DecidableEq ι] in
/-- `PendingRequests::respond`, by a user who is shown the offer of a connection. -/
def Registries.respond (m : Registries ι) (id : Text) (shown : ι) (accepted : Bool) :
    Registries ι :=
  { m with
    pending := Function.update m.pending id none
    answers := match m.pending id with
      | some (.connection j) => Function.update m.answers j (some (shown, accepted))
      | _ => m.answers }

structure Connection (C : Primitives) where
  receiver : Receiver.State C
  registered : Bool := false
  announced : Bool := false
  accepted : Bool := false

/-- The files may change under a connection. -/
inductive ConnAct where
  | register
  | announce
  | respond (accepted : Bool)
  | disk (fs : Files)
  | body (a : Receiver.Act)

/-- The steps of the connection, as opposed to those of the user. -/
def ConnAct.handles : ConnAct → Bool
  | .respond _ | .body (.command _) => false
  | _ => true

/-- The connection waits until it is accepted, or gives up. -/
def admits (offer : Offer) (x : Connection C) (answer : Option (ι × Bool)) : Receiver.Act → Bool
  | .readRequest r => r = offer.request
  | .activate => x.registered
  | .answer accepted => accepted = answer.any fun r => r.2
  | _ => true

def Connection.outcome (x : Connection C) : Receiver.Act → Bool
  | .answer accepted => accepted
  | _ => x.accepted

variable [DecidableEq ι] in
def connectionStep (outputDir : Text) (offer : Offer) (i : ι) (m : Registries ι)
    (x : Connection C) : ConnAct → Option (Registries ι × Connection C)
  | .register => guarded (x.receiver.pc = .activate ∧ ¬ x.registered)
      (m.register offer.id i, { x with registered := true })
  | .announce => guarded (x.receiver.pc = .activate ∧ x.registered)
      (m, { x with announced := true })
  | .respond accepted => guarded x.announced (m.respond offer.id i accepted, x)
  | .disk fs => some (m, { x with receiver := { x.receiver with files := fs } })
  | .body a =>
    if admits offer x (m.answers i) a then
      (Receiver.step outputDir { x.receiver with control := m.control offer.id } a).map fun t =>
        ({ m with control := Function.update m.control offer.id t.control },
          { x with receiver := t, accepted := x.outcome a })
    else none

variable [DecidableEq ι] in
def connections (C : Primitives) (outputDir : Text) (offer : ι → Offer) :
    Components ι (Registries ι) (Connection C) ConnAct where
  step i m x a := connectionStep outputDir (offer i) i m x a

/-- No connection has come yet; what other transfers have put into the maps is there. -/
def Registries.start (others : Text → Bool) (control : Text → Control) : Registries ι where
  pending t := if others t then some .other else none
  control := control
  answers _ := none

/-- The connection is in the maps. -/
def Connection.live (x : Connection C) : Prop := x.registered ∧ x.receiver.pc ≠ .returned

/-- A connection registers an id that no other transfer uses, and under which nothing else
has been offered. -/
def Fresh (offer : ι → Offer) (taken : Text → Prop) (n : System ι (Registries ι) (Connection C))
    (a : ι × ConnAct) : Prop :=
  a.2 = .register → ¬ taken (offer a.1).id ∧
    ∀ j, j ≠ a.1 → (n.parts j).registered → (offer j).id = (offer a.1).id →
      ¬ (n.parts j).live ∧ offer j = offer a.1

namespace Receiver

/-- The connection has been put into the maps, and has not returned. -/
def Pc.entered : Pc → Bool
  | .readRequest | .activate | .returned => false
  | _ => true

theorem control_eq {outputDir : Text} {s t : State C} {a : Act}
    (ha : ∀ c, a ≠ .command c) (hs : step outputDir s a = some t) :
    t.control = s.control ∨ (s.pc ≠ .returned ∧ (s.pc.entered ∨ a = .activate)) := by
  cases a with
  | command c => exact absurd rfl (ha c)
  | _ =>
    simp only [step, guarded_eq_some] at hs
    obtain ⟨g, rfl⟩ := hs
    first
      | exact .inl rfl
      | exact .inr (by simp [g, Pc.entered])

theorem returned_stays {outputDir : Text} {s t : State C} {a : Act} (h : s.pc = .returned)
    (hs : step outputDir s a = some t) : t.pc = .returned := by
  cases a with
  | command c =>
    obtain ⟨control, -, rfl⟩ := Option.map_eq_some_iff.mp hs
    exact h
  | _ =>
    simp only [step, guarded_eq_some] at hs
    obtain ⟨g, rfl⟩ := hs
    first
      | exact h
      | simp [h] at g

theorem entered_step {outputDir : Text} {s t : State C} {a : Act}
    (hs : step outputDir s a = some t) (h : t.pc.entered) : s.pc.entered ∨ a = .activate := by
  cases a with
  | activate => exact .inr rfl
  | command c =>
    obtain ⟨control, -, rfl⟩ := Option.map_eq_some_iff.mp hs
    exact .inl h
  | _ =>
    left
    simp only [step, guarded_eq_some] at hs
    obtain ⟨g, rfl⟩ := hs
    first
      | exact h
      | (simp [Pc.entered] at h; done)
      | (simp [g, Pc.entered]; done)
      | (rcases g with ⟨g | g, -⟩ <;> simp [g, Pc.entered])

end Receiver

/-- What holds of the connections and the maps. -/
structure Consents (offer : ι → Offer) (taken : Text → Prop)
    (n : System ι (Registries ι) (Connection C)) : Prop where
  waiting : ∀ t j, n.store.pending t = some (.connection j) →
    (offer j).id = t ∧ (n.parts j).registered ∧ n.store.answers j = none
  answered : ∀ j k b, n.store.answers j = some (k, b) →
    (n.parts j).registered ∧ (n.parts k).announced ∧ offer k = offer j
  accepted : ∀ j, (n.parts j).accepted → ∃ k, n.store.answers j = some (k, true)
  announced : ∀ k, (n.parts k).announced → (n.parts k).registered
  entered : ∀ j, (n.parts j).receiver.pc.entered → (n.parts j).registered
  same : ∀ i j, (n.parts i).registered → (n.parts j).registered →
    (offer i).id = (offer j).id → offer i = offer j
  alone : ∀ i j, i ≠ j → (n.parts i).live → (n.parts j).live → (offer i).id ≠ (offer j).id
  free : ∀ i, (n.parts i).registered → ¬ taken (offer i).id

theorem Consents.start (offer : ι → Offer) (taken : Text → Prop) (others : Text → Bool)
    (control : Text → Control) (fs : ι → Files) :
    Consents offer taken (⟨.start others control, fun i => { receiver := { files := fs i } }⟩ :
      System ι (Registries ι) (Connection C)) := by
  refine ⟨fun t j h => ?_, ?_, ?_, ?_, ?_, ?_, ?_, ?_⟩
  · cases ho : others t <;> simp [Registries.start, ho] at h
  all_goals simp [Registries.start, Connection.live, Receiver.Pc.entered]

/-- What a step of its own leaves of a connection: its registration, and its announcement. -/
structure Connection.Follows (m : Registries ι) (j : ι) (x y : Connection C) : Prop where
  registered : y.registered = x.registered
  announced : x.announced → y.announced
  shown : y.announced → y.registered
  live : y.live → x.live
  entered : y.receiver.pc.entered → y.registered
  accepted : y.accepted → ∃ k, m.answers j = some (k, true)

theorem Consents.follows {offer : ι → Offer} {taken : Text → Prop}
    {n : System ι (Registries ι) (Connection C)} (h : Consents offer taken n) (j : ι) :
    (n.parts j).Follows n.store j (n.parts j) :=
  ⟨rfl, id, h.announced j, id, h.entered j, h.accepted j⟩

theorem Consents.of_follows {offer : ι → Offer} {taken : Text → Prop}
    {n n' : System ι (Registries ι) (Connection C)} (h : Consents offer taken n)
    (hpending : n'.store.pending = n.store.pending) (hanswers : n'.store.answers = n.store.answers)
    (hparts : ∀ j, (n.parts j).Follows n.store j (n'.parts j)) : Consents offer taken n' := by
  constructor
  · intro t j ht
    rw [hpending] at ht
    rw [hanswers, (hparts j).registered]
    exact h.waiting t j ht
  · intro j k b hj
    rw [hanswers] at hj
    obtain ⟨hr, ha, ho⟩ := h.answered j k b hj
    exact ⟨by rw [(hparts j).registered, hr], (hparts k).announced ha, ho⟩
  · intro j hj
    rw [hanswers]
    exact (hparts j).accepted hj
  · exact fun k => (hparts k).shown
  · exact fun j => (hparts j).entered
  · intro i j hi hj
    rw [(hparts i).registered] at hi
    rw [(hparts j).registered] at hj
    exact h.same i j hi hj
  · exact fun i j hij hi hj => h.alone i j hij ((hparts i).live hi) ((hparts j).live hj)
  · intro i hi
    rw [(hparts i).registered] at hi
    exact h.free i hi

theorem Connection.Follows.body {outputDir : Text} {offer : Offer} {m : Registries ι} {i : ι}
    {x : Connection C} {c : Control} {t : Receiver.State C} {a : Receiver.Act}
    (h : x.Follows m i x) (ha : admits offer x (m.answers i) a)
    (hs : Receiver.step outputDir { x.receiver with control := c } a = some t) :
    x.Follows m i { x with receiver := t, accepted := x.outcome a } := by
  refine ⟨rfl, id, h.shown, fun hl => ⟨hl.1, fun hr => hl.2 ?_⟩, fun he => ?_, fun hacc => ?_⟩
  · exact Receiver.returned_stays (s := { x.receiver with control := c }) hr hs
  · rcases Receiver.entered_step hs he with hx | rfl
    · exact h.entered hx
    · exact ha
  · cases a with
    | answer accepted =>
      have hacc : accepted = true := hacc
      subst hacc
      cases hm : m.answers i with
      | none => simp [admits, hm] at ha
      | some r =>
        obtain ⟨k, b⟩ := r
        obtain rfl : b = true := by simpa [admits, hm] using ha.symm
        exact ⟨k, rfl⟩
    | _ => exact h.accepted hacc

variable [DecidableEq ι]

theorem Consents.register {offer : ι → Offer} {taken : Text → Prop}
    {n : System ι (Registries ι) (Connection C)} {i : ι} (h : Consents offer taken n)
    (hnew : ¬ (n.parts i).registered) (hfree : ¬ taken (offer i).id)
    (hfresh : ∀ j, j ≠ i → (n.parts j).registered → (offer j).id = (offer i).id →
      ¬ (n.parts j).live ∧ offer j = offer i) :
    Consents offer taken (⟨n.store.register (offer i).id i,
      Function.update n.parts i { n.parts i with registered := true }⟩ :
        System ι (Registries ι) (Connection C)) := by
  have hself : Function.update n.parts i { n.parts i with registered := true } i =
      { n.parts i with registered := true } := Function.update_self ..
  have hother : ∀ j, j ≠ i →
      Function.update n.parts i { n.parts i with registered := true } j = n.parts j :=
    fun j hj => Function.update_of_ne hj ..
  have hans : n.store.answers i = none := by
    cases hi : n.store.answers i with
    | none => rfl
    | some r => exact absurd (h.answered i r.1 r.2 hi).1 hnew
  constructor
  · intro t j ht
    by_cases hj : j = i
    · subst hj
      refine ⟨?_, by simp only [hself], hans⟩
      by_contra hne
      have ht : Function.update n.store.pending (offer j).id (some (.connection j)) t =
        some (.connection j) := ht
      rw [Function.update_of_ne (Ne.symm hne)] at ht
      exact hnew (h.waiting t j ht).2.1
    · simp only [hother j hj]
      refine h.waiting t j ?_
      have ht : Function.update n.store.pending (offer i).id (some (.connection i)) t =
        some (.connection j) := ht
      by_cases hid : t = (offer i).id
      · subst hid
        rw [Function.update_self] at ht
        simp only [Option.some.injEq, Waiter.connection.injEq] at ht
        exact absurd ht.symm hj
      · rwa [Function.update_of_ne hid] at ht
  · intro j k b hj
    obtain ⟨hr, hk, ho⟩ := h.answered j k b hj
    refine ⟨?_, ?_, ho⟩
    · by_cases hji : j = i
      · exact absurd (hji ▸ hr) hnew
      · simpa only [hother j hji] using hr
    · by_cases hki : k = i
      · exact absurd (h.announced i (hki ▸ hk)) hnew
      · simpa only [hother k hki] using hk
  · refine (Function.forall_update_iff (p := fun j (y : Connection C) => y.accepted →
      ∃ k, n.store.answers j = some (k, true)) _).mpr ⟨h.accepted i, fun j _ => h.accepted j⟩
  · refine (Function.forall_update_iff (p := fun _ (y : Connection C) => y.announced →
      y.registered) _).mpr ⟨fun _ => rfl, fun j _ => h.announced j⟩
  · refine (Function.forall_update_iff (p := fun _ (y : Connection C) =>
      y.receiver.pc.entered → y.registered) _).mpr ⟨fun _ => rfl, fun j _ => h.entered j⟩
  · intro j k hj hk hid
    by_cases hji : j = i
    · by_cases hki : k = i
      · rw [hji, hki]
      · simp only [hother k hki] at hk
        subst hji
        exact (hfresh k hki hk hid.symm).2.symm
    · simp only [hother j hji] at hj
      by_cases hki : k = i
      · subst hki
        exact (hfresh j hji hj hid).2
      · simp only [hother k hki] at hk
        exact h.same j k hj hk hid
  · intro j k hjk hj hk hid
    by_cases hji : j = i
    · have hki : k ≠ i := fun hki => hjk (hji.trans hki.symm)
      simp only [hother k hki] at hk
      subst hji
      exact (hfresh k hki hk.1 hid.symm).1 hk
    · simp only [hother j hji] at hj
      by_cases hki : k = i
      · subst hki
        exact (hfresh j hji hj.1 hid).1 hj
      · simp only [hother k hki] at hk
        exact h.alone j k hjk hj hk hid
  · refine (Function.forall_update_iff (p := fun j (y : Connection C) => y.registered →
      ¬ taken (offer j).id) _).mpr ⟨fun _ => hfree, fun j _ => h.free j⟩

theorem Consents.respond {offer : ι → Offer} {taken : Text → Prop}
    {n : System ι (Registries ι) (Connection C)} {i : ι} (h : Consents offer taken n)
    (hshown : (n.parts i).announced) (accepted : Bool) :
    Consents offer taken (⟨n.store.respond (offer i).id i accepted, n.parts⟩ :
      System ι (Registries ι) (Connection C)) := by
  have hrest : ∀ t, t ≠ (offer i).id →
      (n.store.respond (offer i).id i accepted).pending t = n.store.pending t :=
    fun t ht => Function.update_of_ne ht ..
  have hgone : (n.store.respond (offer i).id i accepted).pending (offer i).id = none :=
    Function.update_self ..
  -- only the connection that the id leads to gets the answer
  have hanswers : ∀ j, (n.store.respond (offer i).id i accepted).answers j = n.store.answers j ∨
      (n.store.pending (offer i).id = some (.connection j) ∧
        (n.store.respond (offer i).id i accepted).answers j = some (i, accepted)) := by
    intro j
    cases hp : n.store.pending (offer i).id with
    | none => exact .inl (by simp [Registries.respond, hp])
    | some w =>
      cases w with
      | other => exact .inl (by simp [Registries.respond, hp])
      | connection k =>
        by_cases hjk : j = k
        · subst hjk
          exact .inr ⟨rfl, by simp [Registries.respond, hp]⟩
        · exact .inl (by simp [Registries.respond, hp, hjk])
  constructor
  · intro t j ht
    have hne : t ≠ (offer i).id := fun hid => by
      rw [hid, hgone] at ht
      cases ht
    rw [hrest t hne] at ht
    obtain ⟨hid, hr, hnone⟩ := h.waiting t j ht
    refine ⟨hid, hr, ?_⟩
    rcases hanswers j with hsame | ⟨hp, -⟩
    · exact hsame.trans hnone
    · exact absurd (hid.symm.trans (h.waiting _ j hp).1) hne
  · intro j k b hj
    rcases hanswers j with hsame | ⟨hp, hnew⟩
    · exact h.answered j k b (hsame.symm.trans hj)
    · obtain ⟨hid, hr, -⟩ := h.waiting _ j hp
      obtain ⟨rfl, rfl⟩ : i = k ∧ accepted = b := by simpa using hnew.symm.trans hj
      exact ⟨hr, hshown, h.same i j (h.announced i hshown) hr hid.symm⟩
  · intro j hj
    obtain ⟨k, hk⟩ := h.accepted j hj
    rcases hanswers j with hsame | ⟨hp, -⟩
    · exact ⟨k, hsame.trans hk⟩
    · have := (h.waiting _ j hp).2.2
      simp [hk] at this
  · exact h.announced
  · exact h.entered
  · exact h.same
  · exact h.alone
  · exact h.free

theorem Consents.step {outputDir : Text} {offer : ι → Offer} {taken : Text → Prop}
    {n n' : System ι (Registries ι) (Connection C)} {a : ι × ConnAct} (h : Consents offer taken n)
    (ha : Fresh offer taken n a) (hs : (connections C outputDir offer).machine.step n a = some n') :
    Consents offer taken n' := by
  obtain ⟨m, x, hstep, rfl⟩ := Components.machine_step.mp hs
  obtain ⟨i, a⟩ := a
  cases a with
  | register =>
    obtain ⟨⟨-, hnew⟩, he⟩ := guarded_eq_some.mp hstep
    obtain ⟨rfl, rfl⟩ := Prod.mk.inj he
    exact h.register hnew (ha rfl).1 (ha rfl).2
  | respond accepted =>
    obtain ⟨hshown, he⟩ := guarded_eq_some.mp hstep
    obtain ⟨rfl, rfl⟩ := Prod.mk.inj he
    rw [Function.update_eq_self]
    exact h.respond hshown accepted
  | announce =>
    obtain ⟨⟨-, hr⟩, he⟩ := guarded_eq_some.mp hstep
    obtain ⟨rfl, rfl⟩ := Prod.mk.inj he
    refine h.of_follows rfl rfl ((Function.forall_update_iff _ _).mpr
      ⟨?_, fun j _ => h.follows j⟩)
    exact ⟨rfl, fun _ => rfl, fun _ => hr, id, fun _ => hr, h.accepted i⟩
  | disk fs =>
    obtain ⟨rfl, rfl⟩ := Prod.mk.inj (Option.some.inj hstep)
    refine h.of_follows rfl rfl ((Function.forall_update_iff _ _).mpr
      ⟨?_, fun j _ => h.follows j⟩)
    exact ⟨rfl, id, h.announced i, id, h.entered i, h.accepted i⟩
  | body a =>
    simp only [connections, connectionStep, Option.ite_none_right_eq_some,
      Option.map_eq_some_iff, Prod.mk.injEq] at hstep
    obtain ⟨hadmits, t, ht, rfl, rfl⟩ := hstep
    exact h.of_follows rfl rfl ((Function.forall_update_iff _ _).mpr
      ⟨(h.follows i).body hadmits ht, fun j _ => h.follows j⟩)

/-- A connection leaves the entries of every other live transfer as they are. -/
def Spares (offer : ι → Offer) (taken : Text → Prop)
    (n n' : System ι (Registries ι) (Connection C)) (i : ι) : Prop :=
  ∀ t, (taken t ∨ ∃ j, j ≠ i ∧ (n.parts j).live ∧ (offer j).id = t) →
    n'.store.pending t = n.store.pending t ∧ n'.store.control t = n.store.control t

theorem Consents.spares {outputDir : Text} {offer : ι → Offer} {taken : Text → Prop}
    {n n' : System ι (Registries ι) (Connection C)} {a : ι × ConnAct} (h : Consents offer taken n)
    (ha : Fresh offer taken n a) (hhandles : a.2.handles)
    (hs : (connections C outputDir offer).machine.step n a = some n') :
    Spares offer taken n n' a.1 := by
  obtain ⟨m, x, hstep, rfl⟩ := Components.machine_step.mp hs
  obtain ⟨i, a⟩ := a
  rintro t ht
  cases a with
  | register =>
    obtain ⟨-, he⟩ := guarded_eq_some.mp hstep
    obtain ⟨rfl, rfl⟩ := Prod.mk.inj he
    obtain ⟨hfree, hfresh⟩ := ha rfl
    have hne : t ≠ (offer i).id := by
      rintro rfl
      rcases ht with ht | ⟨j, hj, hlive, hid⟩
      · exact hfree ht
      · exact (hfresh j hj hlive.1 hid).1 hlive
    exact ⟨Function.update_of_ne hne .., rfl⟩
  | respond accepted => cases hhandles
  | announce =>
    obtain ⟨-, he⟩ := guarded_eq_some.mp hstep
    obtain ⟨rfl, rfl⟩ := Prod.mk.inj he
    exact ⟨rfl, rfl⟩
  | disk fs =>
    obtain ⟨rfl, rfl⟩ := Prod.mk.inj (Option.some.inj hstep)
    exact ⟨rfl, rfl⟩
  | body a =>
    simp only [connections, connectionStep, Option.ite_none_right_eq_some,
      Option.map_eq_some_iff, Prod.mk.injEq] at hstep
    obtain ⟨hadmits, u, hu, rfl, rfl⟩ := hstep
    refine ⟨rfl, ?_⟩
    show Function.update n.store.control (offer i).id u.control t = n.store.control t
    by_cases hid : t = (offer i).id
    · subst hid
      rw [Function.update_self]
      rcases Receiver.control_eq (fun c hc => by simp [hc, ConnAct.handles] at hhandles) hu with
        hsame | htouch
      · exact hsame
      · -- a connection that touches the maps is in them
        exfalso
        obtain ⟨hpc, hentered⟩ := htouch
        have hlive : (n.parts i).live := by
          refine ⟨?_, hpc⟩
          rcases hentered with he | rfl
          · exact h.entered i he
          · exact hadmits
        rcases ht with ht | ⟨j, hj, hother, hid⟩
        · exact h.free i hlive.1 ht
        · exact h.alone j i hj hother hlive hid
    · exact Function.update_of_ne hid ..

/-- **Consent.** In every run in which each connection registers an id of its own, a
connection that is accepted was accepted by an answer to its own offer, and no connection
touches the entries of another live transfer. -/
theorem consent_bound (C : Primitives) (outputDir : Text) (offer : ι → Offer)
    (taken : Text → Prop) (others : Text → Bool) (control : Text → Control) (fs : ι → Files)
    {n : System ι (Registries ι) (Connection C)}
    (h : (connections C outputDir offer).machine.Reach (Fresh offer taken)
      ⟨.start others control, fun i => { receiver := { files := fs i } }⟩ n) :
    (∀ j, (n.parts j).accepted → ∃ k, n.store.answers j = some (k, true) ∧
      (n.parts k).announced ∧ offer k = offer j) ∧
    ∀ a n', Fresh offer taken n a → a.2.handles →
      (connections C outputDir offer).machine.step n a = some n' → Spares offer taken n n' a.1 := by
  have hinv := h.invariant (I := Consents offer taken) (.start offer taken others control fs)
    fun _ _ _ hI ha hs => hI.step ha hs
  refine ⟨fun j hj => ?_, fun a n' ha hh hs => hinv.spares ha hh hs⟩
  obtain ⟨k, hk⟩ := hinv.accepted j hj
  exact ⟨k, hk, (hinv.answered j k true hk).2⟩

/-- Two offers under these ids, for files of different names. -/
def twoOffers (id id' : Text) (second : Bool) : Offer where
  request := ⟨if second then id' else id, if second then ['g'] else ['f'], 1, false⟩
  senderName := []
  senderNodeId := []

/-- A connection puts its offer before the user. -/
def offering (offer : Offer) : List ConnAct :=
  [.body (.readRequest offer.request), .register, .announce, .body .activate, .body .register]

/-- The machine of two connections that find nothing in the maps. -/
def twoConnections (id id' : Text) :
    Machine (System Bool (Registries Bool) (Connection .plain)) (Bool × ConnAct) :=
  (connections .plain [] (twoOffers id id')).machine

def twoWaiting : System Bool (Registries Bool) (Connection .plain) :=
  ⟨.start (fun _ => false) (fun _ => {}), fun _ => { receiver := { files := noFiles } }⟩

/-- With an id for each, the answer to the first offer lets the first connection in. -/
theorem consent_first : ∃ n : System Bool (Registries Bool) (Connection .plain),
    (n.parts false).accepted ∧
    ∃ k, n.store.answers false = some (k, true) ∧
      twoOffers ['a'] ['b'] k = twoOffers ['a'] ['b'] false := by
  obtain ⟨n, hn, hacc⟩ := Option.map_eq_some_iff.mp
    (show ((twoConnections ['a'] ['b']).run twoWaiting
        ((offering (twoOffers ['a'] ['b'] false)).map (Prod.mk false) ++
          (offering (twoOffers ['a'] ['b'] true)).map (Prod.mk true) ++
          [(false, .respond true), (false, .body (.answer true))])).map
      (fun n => (n.parts false).accepted) = some true from rfl)
  have hreach : (twoConnections ['a'] ['b']).Reach
      (Fresh (twoOffers ['a'] ['b']) fun _ => False) twoWaiting n := by
    refine Machine.reach_of_run (fun t a _ _ => ⟨id, fun j hj _ hid => ?_⟩) hn
    exfalso
    obtain ⟨i, act⟩ := a
    cases i <;> cases j <;> first
      | exact hj rfl
      | simp [Offer.id, twoOffers] at hid
  obtain ⟨k, hk, -, ho⟩ := (consent_bound .plain [] (twoOffers ['a'] ['b']) (fun _ => False)
    (fun _ => false) (fun _ => {}) (fun _ => noFiles) hreach).1 false hacc
  exact ⟨n, hacc, k, hk, ho⟩

/-- With one id for both, the answer to the first offer lets the second connection in, and
the first one, which has lost its sender, takes the entries of the second away. -/
theorem consent_misdirected :
    (∃ n : System Bool (Registries Bool) (Connection .plain),
      (twoConnections ['a'] ['a']).Reach (fun _ _ => True) twoWaiting n ∧
      (n.parts true).accepted ∧
      ¬ ∃ k, n.store.answers true = some (k, true) ∧ (n.parts k).announced ∧
        twoOffers ['a'] ['a'] k = twoOffers ['a'] ['a'] true) ∧
    ∃ n n' : System Bool (Registries Bool) (Connection .plain),
      (twoConnections ['a'] ['a']).Reach (fun _ _ => True) twoWaiting n ∧
      (twoConnections ['a'] ['a']).step n (false, .body .rejectActive) = some n' ∧
      ¬ Spares (twoOffers ['a'] ['a']) (fun _ => False) n n' false := by
  constructor
  · obtain ⟨n, hn, he⟩ := Option.map_eq_some_iff.mp
      (show ((twoConnections ['a'] ['a']).run twoWaiting
          ((offering (twoOffers ['a'] ['a'] false)).map (Prod.mk false) ++
            (offering (twoOffers ['a'] ['a'] true)).map (Prod.mk true) ++
            [(false, .respond true), (true, .body (.answer true))])).map
        (fun n => ((n.parts true).accepted, n.store.answers true)) =
          some (true, some (false, true)) from rfl)
    simp only [Prod.mk.injEq] at he
    refine ⟨n, Machine.reach_of_run (fun _ _ _ => trivial) hn, he.1, ?_⟩
    rintro ⟨k, hk, -, ho⟩
    obtain rfl : false = k := by simpa [he.2] using hk
    revert ho
    decide
  · obtain ⟨n, hn, he⟩ := Option.map_eq_some_iff.mp
      (show ((twoConnections ['a'] ['a']).run twoWaiting
          ((offering (twoOffers ['a'] ['a'] false)).map (Prod.mk false) ++
            (offering (twoOffers ['a'] ['a'] true)).map (Prod.mk true) ++
            [(false, .body (.answer false))])).map
        (fun n => ((n.parts true).registered, (n.parts true).receiver.pc,
          (n.store.control ['a']).active, ((twoConnections ['a'] ['a']).step n
            (false, .body .rejectActive)).map fun n' => (n'.store.control ['a']).active)) =
          some (true, .awaitAnswer, true, some false) from rfl)
    simp only [Prod.mk.injEq, Option.map_eq_some_iff] at he
    obtain ⟨hreg, hpc, hactive, n', hn', hinactive⟩ := he
    refine ⟨n, n', Machine.reach_of_run (fun _ _ _ => trivial) hn, hn', fun hspares => ?_⟩
    have hsame := (hspares ['a'] (.inr ⟨true, by decide, ⟨hreg, by simp [hpc]⟩, rfl⟩)).2
    rw [hsame, hactive] at hinactive
    cases hinactive

end P2PTransfer.Alpn
