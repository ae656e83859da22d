import P2PTransfer.Lib.Outbox
import P2PTransfer.Network.Registry

/-!
# Sending from the mobile application

`api::send_file`: one attempt over the LAN if discovery knows the peer, then the QUIC
fallback, unless the text of the first error says that the transfer was refused. Both
attempts report to the channel of the call on their own.

## Main definitions

- `SendEvent` — the final events of a send
- `Mobile`, `Mobile.Act`, `mobile` — the function with its two attempts
- `MobilePhase.senders` — the handles of the channel that the function holds
- `Mobile.post` — the events of the steps
-/

namespace P2PTransfer

open Transition

variable {C : Primitives}

inductive SendEvent (C : Primitives) where
  | complete (blake3Hash : C.Digest)
  | rejected
  | cancelled
  | error (message : Text)
deriving DecidableEq

/-- The text that an error of the opening ends the attempt with. -/
def OpenError.text : OpenError → Text
  | .io e => e
  | .expectedServerHello => "Expected SERVER_HELLO".toList
  | .invalidKey => "Invalid key length".toList
  | .rejected => "Peer rejected transfer".toList

namespace Lan

def connectFailed : Text := "Failed to connect to peer".toList

/-- What an attempt over the LAN has returned. -/
def returns (s : Registered (OpenPhase C (Sender.State C))) : Option (Except Text C.Digest) :=
  if s.stage = .failed then some (.error connectFailed)
  else match s.inner with
    | .failed e => some (.error e.text)
    | .running t => if t.pc = .returned then t.result.map (Except.mapError SendError.text) else none
    | _ => none

end Lan

namespace Alpn

/-- What an attempt over QUIC has returned. -/
def returns (s : Sender.State C) : Option (Except Text C.Digest) :=
  if s.pc = .returned then s.result.map (Except.mapError SendError.text) else none

end Alpn

/-- After these errors of the first attempt there is no second one. -/
def mobileFinal (e : Text) : Bool :=
  Alpn.contains e "rejected".toList || e = "REJECTED".toList ||
    Alpn.contains e "cancelled".toList || Alpn.contains e "Cancelled".toList

inductive MobilePhase (C : Primitives) where
  | discover
  | lan (s : Lan.Registered (OpenPhase C (Lan.Sender.State C)))
  | quic (s : Alpn.Sender.State C)
  | complete (hash : C.Digest)
  | waiting (hash : C.Digest)
  | returned (r : Except Text C.Digest)

/-- The hash of a call that has succeeded and reported it. -/
def MobilePhase.hash {C : Primitives} : MobilePhase C → Option C.Digest
  | .waiting hash => some hash
  | _ => none

theorem MobilePhase.hash_eq_some {C : Primitives} {p : MobilePhase C} {hash : C.Digest} :
    p.hash = some hash ↔ p = .waiting hash := by
  cases p <;> simp [MobilePhase.hash]

/-- The handles `tx` and `tx_clone` of the channel of the call. -/
inductive TxHandle where
  | tx
  | txClone
deriving DecidableEq

/-- The handles that the function has not dropped. It gives up `tx` only when it returns. -/
def MobilePhase.senders {C : Primitives} : MobilePhase C → List TxHandle
  | .waiting _ => [.tx]
  | .returned _ => []
  | _ => [.tx, .txClone]

/-- The call. The last two fields record whether the flag of the request was cancelled,
and whether the first attempt has reported that it failed. -/
structure Mobile (C : Primitives) where
  phase : MobilePhase C := .discover
  cancelCalled : Bool := false
  lanFailed : Bool := false

namespace Mobile

inductive Act (C : Primitives) where
  | noPeer
  | badAddress
  | peer
  | lan (a : Lan.Direct.Act C)
  | lanReturned
  | quic (a : Alpn.Sender.Act)
  | quicReturned
  | complete
  | joined

/-- How the call goes on after the first attempt. -/
def afterLan (control : Control) : Except Text C.Digest → MobilePhase C
  | .ok hash => .complete hash
  | .error e => if mobileFinal e then .returned (.error e) else .quic { control := control }

def afterQuic : Except Text C.Digest → MobilePhase C
  | .ok hash => .complete hash
  | .error e => .returned (.error e)

/-- The task that forwards the events ends when all handles of the channel have been dropped. -/
def next (O : Opening C (Lan.Sender.State C)) (disk : Disk) :
    MobilePhase C → Act C → Option (MobilePhase C)
  | .discover, .noPeer | .discover, .badAddress => some (.quic {})
  | .discover, .peer => some (.lan { inner := .hello, control := {} })
  | .lan s, .lan a => (Lan.Direct.step O disk s a).map .lan
  | .lan s, .lanReturned => (Lan.returns s).map (afterLan s.control)
  | .quic s, .quic a => (Alpn.Sender.step disk s a).map .quic
  | .quic s, .quicReturned => (Alpn.returns s).map afterQuic
  | .complete hash, .complete => some (.waiting hash)
  | .waiting hash, .joined =>
    guarded ((MobilePhase.waiting hash).senders = []) (.returned (.ok hash))
  | _, _ => none

/-- The action cancels the flag of the request. -/
def cancels : MobilePhase C → Act C → Bool
  | _, .lan (.inner (.body .cancel)) => true
  | .lan s, .lan (.command .cancelSignal) => s.control.registered.isSome
  | .quic s, .quic (.command .cancelSignal) => s.control.registered.isSome
  | _, _ => false

/-- The first attempt reports that it has failed. -/
def fails : Act C → Bool
  | .lan .connectError | .lan (.inner (.body (.sendError _))) => true
  | _ => false

def step (O : Opening C (Lan.Sender.State C)) (disk : Disk) (s : Mobile C) (a : Act C) :
    Option (Mobile C) :=
  (next O disk s.phase a).map fun p =>
    ⟨p, s.cancelCalled || cancels s.phase a, s.lanFailed || fails a⟩

/-- The reader task reports the errors of opening and reading the file, but not those
of reading the prefix. -/
def reported (detail : Text) : Bool :=
  "Cannot open file".toList.isPrefixOf detail || "File read error".toList.isPrefixOf detail

/-- The final events. A LAN attempt reports every error of its loop as a cancellation. -/
def post : Mobile C → Act C → Option (Post (SendEvent C))
  | _, .lan .connectError => some (.attempt (.error Lan.connectFailed))
  | _, .lan (.inner (.body (.sendError _))) => some (.wait .cancelled)
  | _, .quic (.fail (.stat _)) => none
  | _, .quic (.fail e) => some (.attempt (.error e.text))
  | _, .quic (.rejected _) => some (.attempt .rejected)
  | _, .quic .seeCancel => some (.attempt .cancelled)
  | _, .quic (.readError detail) => if reported detail then some (.wait (.error detail)) else none
  | ⟨.complete hash, _, _⟩, .complete => some (.wait (.complete hash))
  | _, _ => none

end Mobile

/-- `api::send_file`. -/
def mobile (C : Primitives) (pauses : Nat) (secret : C.Secret) (metadata : TransferMetadata C)
    (disk : Disk) : Machine (Mobile C) (Mobile.Act C) where
  step := Mobile.step (Lan.directOpening C pauses secret metadata) disk

namespace Lan.Sender

/-- The function ends its loop with an error only after a cancellation, or a failed write. -/
theorem sendError_cases {disk : Disk} {s t : State C} {a : Act C} {e : SendError}
    (hs : step disk s a = some t) (hpc : t.pc = .sendError e) :
    s.pc = .sendError e ∨ s.cancelled ∨ ∃ detail, a = .writeError detail := by
  cases a with
  | cancel =>
    obtain rfl := Option.some.inj hs
    exact .inl hpc
  | writeError detail => exact .inr (.inr ⟨detail, rfl⟩)
  | seeCancel =>
    obtain ⟨⟨-, hc⟩, -⟩ := guarded_eq_some.mp hs
    exact .inr (.inl hc)
  | _ =>
    simp only [step, guarded_eq_some] at hs
    obtain ⟨g, rfl⟩ := hs
    first
      | exact .inl hpc
      | cases hpc

theorem cancelled_cases {disk : Disk} {s t : State C} {a : Act C} (hs : step disk s a = some t)
    (hc : t.cancelled) : s.cancelled ∨ a = .cancel := by
  cases a with
  | cancel => exact .inr rfl
  | _ =>
    simp only [step, guarded_eq_some] at hs
    obtain ⟨g, rfl⟩ := hs
    exact .inl hc

end Lan.Sender

namespace Control

variable {c c' : Control} {k : Command}

/-- A flag is cancelled only by a signal to the flag that the map holds. -/
theorem Clean.command_of (h : c.Clean)
    (hk : k = .cancelSignal → c.registered.isSome = false) (hs : c.command k = some c') :
    c'.Clean := by
  cases k with
  | cancelSignal =>
    have hnone : c.registered = none := by simpa using hk rfl
    have hflags := (flags_command hnone hs).1
    intro f hf
    exact h f (hflags ▸ hf)
  | cancelDeactivate =>
    obtain ⟨-, rfl⟩ := guarded_eq_some.mp hs
    exact h
  | cancelUnregister =>
    obtain ⟨-, rfl⟩ := guarded_eq_some.mp hs
    exact h
  | _ => exact h.command rfl hs

end Control

namespace Alpn.Sender

/-- What a QUIC attempt that nothing went before has reported. -/
structure Reports (events : List (SendEvent C)) (s : State C) : Prop where
  early : s.pc.early → s.reader = .idle
  quiet : (∀ d, s.reader ≠ .failed d) → s.pc ≠ .cancelActive → s.pc ≠ .cancelFlag →
    s.pc ≠ .returned → events = []
  ok : ∀ h, s.result = some (.ok h) → events = [] ∧ s.reader = .done ∧
    (s.pc = .clearFlag ∨ s.pc = .clearActive ∨ s.pc = .returned)

theorem Reports.step {disk : Disk} {events events' : List (SendEvent C)} {s t : State C} {a : Act}
    (m : Mobile C) (h : Reports events s)
    (hevents : Mobile.post m (.quic a) = none → events' = events)
    (hs : Sender.step disk s a = some t) : Reports events' t := by
  obtain ⟨h1, h2, h3⟩ := h
  cases a with
  | command c =>
    obtain ⟨control, -, rfl⟩ := Option.map_eq_some_iff.mp hs
    obtain rfl := hevents rfl
    exact ⟨h1, h2, h3⟩
  | fail e =>
    simp only [Sender.step, guarded_eq_some] at hs
    obtain ⟨-, rfl⟩ := hs
    exact ⟨by simp [Pc.early], by simp, by simp⟩
  | rejected resumeOffset =>
    simp only [Sender.step, guarded_eq_some] at hs
    obtain ⟨-, rfl⟩ := hs
    exact ⟨by simp [Pc.early], by simp, by simp⟩
  | seeCancel =>
    simp only [Sender.step, guarded_eq_some] at hs
    obtain ⟨⟨g, -⟩, rfl⟩ := hs
    refine ⟨by simp [Pc.early], by simp, fun d hd => ?_⟩
    rcases (h3 d hd).2.2 with hp | hp | hp <;> simp [hp, Pc.polls] at g
  | readError detail =>
    simp only [Sender.step, guarded_eq_some] at hs
    obtain ⟨g, rfl⟩ := hs
    refine ⟨fun hp => ?_, fun hr => absurd rfl (hr detail), fun d hd => ?_⟩
    · have := h1 hp
      rcases g with g | g <;> simp [g] at this
    · have := (h3 d hd).2.1
      rcases g with g | g <;> simp [g] at this
  | accepted resumeOffset =>
    simp only [Sender.step, guarded_eq_some] at hs
    obtain ⟨g, rfl⟩ := hs
    obtain rfl := hevents rfl
    have hidle := h1 (by simp [g, Pc.early])
    refine ⟨by simp [Pc.early], fun _ _ _ _ => ?_, fun d hd => ?_⟩
    · exact h2 (by simp [hidle]) (by simp [g]) (by simp [g]) (by simp [g])
    · rcases (h3 d hd).2.2 with hp | hp | hp <;> simp [hp] at g
  | join =>
    simp only [Sender.step, guarded_eq_some] at hs
    obtain ⟨⟨g, hr⟩, rfl⟩ := hs
    obtain rfl := hevents rfl
    have hnil := h2 (by simp [hr]) (by simp [g]) (by simp [g]) (by simp [g])
    exact ⟨by simp [Pc.early], fun _ _ _ _ => hnil, fun _ _ => ⟨hnil, hr, .inl rfl⟩⟩
  | _ =>
    simp only [Sender.step, guarded_eq_some] at hs
    obtain ⟨g, rfl⟩ := hs
    obtain rfl := hevents rfl
    refine ⟨?_, ?_, ?_⟩ <;> first
      | assumption
      | grind -ring -linarith [Pc.early]

theorem Reports.start (c : Control) : Reports ([] : List (SendEvent C)) { control := c } := by
  constructor <;> simp

theorem clean_step {disk : Disk} {s t : State C} {a : Act} (h : s.control.Clean)
    (ha : a = .command .cancelSignal → s.control.registered.isSome = false)
    (hs : Sender.step disk s a = some t) : t.control.Clean := by
  cases a with
  | command c =>
    obtain ⟨control, hc, rfl⟩ := Option.map_eq_some_iff.mp hs
    exact h.command_of (fun hk => ha (by rw [hk])) hc
  | register =>
    obtain ⟨-, rfl⟩ := guarded_eq_some.mp hs
    exact h.register
  | fail e =>
    obtain ⟨-, rfl⟩ := guarded_eq_some.mp hs
    dsimp only
    split <;> exact h
  | _ =>
    simp only [Sender.step, guarded_eq_some] at hs
    obtain ⟨-, rfl⟩ := hs
    exact h

end Alpn.Sender

namespace Lan

theorem Direct.clean_step {O : Opening C (Sender.State C)} {disk : Disk}
    {s t : Registered (OpenPhase C (Sender.State C))} {a : Direct.Act C} (h : s.control.Clean)
    (ha : a = .command .cancelSignal → s.control.registered.isSome = false)
    (hs : Direct.step O disk s a = some t) : t.control.Clean := by
  cases a with
  | command c =>
    obtain ⟨control, hc, rfl⟩ := Option.map_eq_some_iff.mp hs
    exact h.command_of (fun hk => ha (by rw [hk])) hc
  | register =>
    obtain ⟨-, rfl⟩ := guarded_eq_some.mp hs
    exact h.register
  | inner a =>
    simp only [Direct.step, Option.ite_none_right_eq_some, Option.map_eq_some_iff] at hs
    obtain ⟨-, p, -, rfl⟩ := hs
    exact h
  | _ =>
    simp only [Direct.step, guarded_eq_some] at hs
    obtain ⟨-, rfl⟩ := hs
    exact h

/-- The loop of a LAN attempt has been cancelled, or is ending because it was. -/
structure Cancels (cancelCalled : Bool) (s : Registered (OpenPhase C (Sender.State C))) : Prop where
  seen : ∀ t, s.inner = .running t → t.cancelled → cancelCalled
  error : ∀ t e, s.inner = .running t → t.pc = .sendError e → cancelCalled

theorem Cancels.step {O : Opening C (Sender.State C)} {disk : Disk}
    (hO : ∀ key f t, O.start key f = some t → t.pc = .check ∧ t.cancelled = false)
    {cancelCalled cancelCalled' : Bool} {s t : Registered (OpenPhase C (Sender.State C))}
    {a : Direct.Act C} (h : Cancels cancelCalled s) (hmono : cancelCalled → cancelCalled')
    (hcancel : a = .inner (.body .cancel) → cancelCalled')
    (hwrite : ∀ detail, a = .inner (.body (.writeError detail)) → cancelCalled)
    (hs : Direct.step O disk s a = some t) : Cancels cancelCalled' t := by
  cases a with
  | command c =>
    obtain ⟨control, -, rfl⟩ := Option.map_eq_some_iff.mp hs
    exact ⟨fun u hu hc => hmono (h.seen u hu hc), fun u e hu he => hmono (h.error u e hu he)⟩
  | inner a =>
    simp only [Direct.step, Option.ite_none_right_eq_some, Option.map_eq_some_iff] at hs
    obtain ⟨-, p, hp, rfl⟩ := hs
    refine ⟨fun u hu hc => ?_, fun u e hu he => ?_⟩
    · obtain rfl : p = .running u := hu
      rcases Direct.running_cases hp with ⟨key, f, hstart⟩ | ⟨t, b, ht, rfl, hb⟩
      · simp [(hO key f u hstart).2] at hc
      · rcases Sender.cancelled_cases hb hc with hold | rfl
        · exact hmono (h.seen t ht hold)
        · exact hcancel rfl
    · obtain rfl : p = .running u := hu
      rcases Direct.running_cases hp with ⟨key, f, hstart⟩ | ⟨t, b, ht, rfl, hb⟩
      · simp [(hO key f u hstart).1] at he
      · rcases Sender.sendError_cases hb he with hold | hold | ⟨detail, rfl⟩
        · exact hmono (h.error t e ht hold)
        · exact hmono (h.seen t ht hold)
        · exact hmono (hwrite detail rfl)
  | _ =>
    simp only [Direct.step, guarded_eq_some] at hs
    obtain ⟨-, rfl⟩ := hs
    exact ⟨fun u hu hc => hmono (h.seen u hu hc), fun u e hu he => hmono (h.error u e hu he)⟩

end Lan

namespace Mobile

/-- A write of the LAN attempt fails only after a cancellation. -/
def honest (m : Mobile C) : Act C → Bool
  | .lan (.inner (.body (.writeError _))) => m.cancelCalled
  | _ => true

/-- What has been reported at each point of such a run. -/
def Phased (m : Mobile C) (events : List (SendEvent C)) : Prop :=
  match m.phase with
  | .discover => events = [] ∧ m.lanFailed = false
  | .lan s => (m.cancelCalled = false → s.control.Clean) ∧ Lan.Cancels m.cancelCalled s ∧
      (m.lanFailed = false → events = [])
  | .quic s => (m.cancelCalled = false → s.control.Clean) ∧
      (m.lanFailed = false → Alpn.Sender.Reports events s)
  | .complete _ => m.lanFailed = false → events = []
  | .waiting hash => m.lanFailed = false → events = [.complete hash]
  | .returned _ => True

theorem post_lan_none {m : Mobile C} {a : Lan.Direct.Act C} (h : fails (.lan a) = false) :
    post m (.lan a) = none := by
  cases a with
  | connectError => cases h
  | inner a =>
    cases a with
    | body a =>
      cases a with
      | sendError e => cases h
      | _ => rfl
    | _ => rfl
  | _ => rfl

theorem Phased.step {O : Opening C (Lan.Sender.State C)} {disk : Disk}
    (hO : ∀ key f t, O.start key f = some t → t.pc = .check ∧ t.cancelled = false)
    {m m' : Mobile C} {a : Act C} {events events' : List (SendEvent C)} (h : Phased m events)
    (ha : honest m a) (hevents : ∀ p, post m a = some (.wait p) → events' = events ++ [p])
    (hnone : post m a = none → events' = events)
    (hs : Mobile.step O disk m a = some m') : Phased m' events' := by
  obtain ⟨p, hp, rfl⟩ := Option.map_eq_some_iff.mp hs
  obtain ⟨phase, cc, lf⟩ := m
  have hempty : ({} : Control).Clean := fun f hf => absurd hf List.not_mem_nil
  cases phase with
  | discover =>
    obtain ⟨rfl, rfl⟩ : events = [] ∧ lf = false := h
    cases a with
    | noPeer =>
      obtain rfl := Option.some.inj hp
      obtain rfl := hnone rfl
      exact ⟨fun _ => hempty, fun _ => .start _⟩
    | badAddress =>
      obtain rfl := Option.some.inj hp
      obtain rfl := hnone rfl
      exact ⟨fun _ => hempty, fun _ => .start _⟩
    | peer =>
      obtain rfl := Option.some.inj hp
      obtain rfl := hnone rfl
      exact ⟨fun _ => hempty, ⟨by simp, by simp⟩, fun _ => rfl⟩
    | _ => cases hp
  | lan s =>
    obtain ⟨hclean, hcancels, hnil⟩ := h
    cases a with
    | lan a =>
      obtain ⟨t, ht, rfl⟩ := Option.map_eq_some_iff.mp hp
      refine ⟨fun hcc => ?_, hcancels.step hO (fun hcc => ?_) ?_ ?_ ht, fun hlf => ?_⟩
      · obtain ⟨hcc, hc⟩ := Bool.or_eq_false_iff.mp hcc
        refine Lan.Direct.clean_step (hclean hcc) ?_ ht
        rintro rfl
        exact hc
      · exact Bool.or_eq_true_iff.mpr (.inl hcc)
      · rintro rfl
        simp [cancels]
      · rintro detail rfl
        exact ha
      · obtain ⟨hlf, hf⟩ := Bool.or_eq_false_iff.mp hlf
        rw [hnone (post_lan_none hf)]
        exact hnil hlf
    | lanReturned =>
      obtain ⟨r, hr, rfl⟩ := Option.map_eq_some_iff.mp hp
      obtain rfl := hnone rfl
      cases r with
      | ok hash => exact fun hlf => hnil (by simpa [fails] using hlf)
      | error e =>
        cases hfinal : mobileFinal e with
        | true =>
          rw [afterLan, if_pos hfinal]
          trivial
        | false =>
          rw [afterLan, if_neg (by simp [hfinal])]
          refine ⟨fun hcc => hclean (by simpa [cancels] using hcc), fun hlf => ?_⟩
          rw [hnil (by simpa [fails] using hlf)]
          exact .start _
    | _ => cases hp
  | quic s =>
    obtain ⟨hclean, hreports⟩ := h
    cases a with
    | quic a =>
      obtain ⟨t, ht, rfl⟩ := Option.map_eq_some_iff.mp hp
      refine ⟨fun hcc => ?_, fun hlf => ?_⟩
      · obtain ⟨hcc, hc⟩ := Bool.or_eq_false_iff.mp hcc
        refine Alpn.Sender.clean_step (hclean hcc) ?_ ht
        rintro rfl
        exact hc
      · exact (hreports (by simpa [fails] using hlf)).step ⟨.quic s, cc, lf⟩ hnone ht
    | quicReturned =>
      obtain ⟨r, hr, rfl⟩ := Option.map_eq_some_iff.mp hp
      obtain rfl := hnone rfl
      cases r with
      | ok hash =>
        intro hlf
        replace hlf : lf = false := by simpa [fails] using hlf
        unfold Alpn.returns at hr
        split at hr
        · obtain ⟨r, hres, hok⟩ := Option.map_eq_some_iff.mp hr
          cases r with
          | ok d => exact ((hreports hlf).ok d hres).1
          | error e => cases hok
        · cases hr
      | error e => trivial
    | _ => cases hp
  | complete hash =>
    cases a with
    | complete =>
      obtain rfl := Option.some.inj hp
      intro hlf
      rw [hevents (.complete hash) rfl, h (by simpa [fails] using hlf)]
      rfl
    | _ => cases hp
  | waiting hash =>
    cases a with
    | joined =>
      obtain ⟨hnone, -⟩ := guarded_eq_some.mp hp
      cases hnone
    | _ => cases hp
  | returned r => cases a <;> cases hp

theorem next_ne_ok {O : Opening C (Lan.Sender.State C)} {disk : Disk} {m m' : Mobile C} {a : Act C}
    {hash : C.Digest} (hs : Mobile.step O disk m a = some m') :
    m'.phase ≠ .returned (.ok hash) := by
  obtain ⟨p, hp, rfl⟩ := Option.map_eq_some_iff.mp hs
  rintro rfl
  unfold next at hp
  split at hp
  · cases hp
  · cases hp
  · cases hp
  · obtain ⟨t, -, ht⟩ := Option.map_eq_some_iff.mp hp
    cases ht
  · obtain ⟨r, -, hr⟩ := Option.map_eq_some_iff.mp hp
    unfold afterLan at hr
    split at hr
    · cases hr
    · split at hr <;> cases hr
  · obtain ⟨t, -, ht⟩ := Option.map_eq_some_iff.mp hp
    cases ht
  · obtain ⟨r, -, hr⟩ := Option.map_eq_some_iff.mp hp
    unfold afterQuic at hr
    split at hr <;> cases hr
  · cases hp
  · obtain ⟨hnone, -⟩ := guarded_eq_some.mp hp
    cases hnone
  · cases hp

theorem post_cancelled {m : Mobile C} {a : Act C}
    (h : (post m a).map Post.event = some .cancelled) :
    (∃ e, a = .lan (.inner (.body (.sendError e)))) ∨ a = .quic .seeCancel := by
  unfold post at h
  split at h <;> first
    | exact .inl ⟨_, rfl⟩
    | exact .inr rfl
    | simp at h

theorem cancelled_step {O : Opening C (Lan.Sender.State C)} {disk : Disk} {m m' : Mobile C}
    {a : Act C} {events : List (SendEvent C)} (h : Phased m events)
    (hpost : (post m a).map Post.event = some .cancelled)
    (hs : Mobile.step O disk m a = some m') : m.cancelCalled := by
  obtain ⟨p, hp, -⟩ := Option.map_eq_some_iff.mp hs
  obtain ⟨phase, cc, lf⟩ := m
  rcases post_cancelled hpost with ⟨e, rfl⟩ | rfl
  · cases phase with
    | lan s =>
      obtain ⟨t, ht, -⟩ := Option.map_eq_some_iff.mp hp
      simp only [Lan.Direct.step, Option.ite_none_right_eq_some, Option.map_eq_some_iff] at ht
      obtain ⟨-, q, hq, -⟩ := ht
      cases hi : s.inner with
      | running u =>
        rw [hi] at hq
        obtain ⟨v, hv, -⟩ := Option.map_eq_some_iff.mp hq
        obtain ⟨g, -⟩ := guarded_eq_some.mp hv
        exact h.2.1.error u e hi g
      | _ =>
        rw [hi] at hq
        cases hq
    | _ => cases hp
  · cases phase with
    | quic s =>
      obtain ⟨t, ht, -⟩ := Option.map_eq_some_iff.mp hp
      obtain ⟨⟨-, hc⟩, -⟩ := guarded_eq_some.mp ht
      cases hcc : cc with
      | true => rfl
      | false =>
        have hclean := (h.1 hcc).cancelled s.flag
        rw [Alpn.Sender.State.seesCancel, hclean] at hc
        cases hc
    | _ => cases hp

end Mobile

/-- No call returns `Ok`: the task that it waits for in the end waits for its last handle. -/
theorem mobile_not_ok (C : Primitives) (pauses : Nat) (secret : C.Secret)
    (metadata : TransferMetadata C) (disk : Disk) (capacity fill : Nat)
    {ok : Reporting (Mobile C) (SendEvent C) → Mobile.Act C → Prop}
    {r : Reporting (Mobile C) (SendEvent C)}
    (h : ((mobile C pauses secret metadata disk).reporting capacity Mobile.post).Reach
      (Machine.OnInner ok) ⟨{}, fill, []⟩ r) (hash : C.Digest) :
    r.inner.phase ≠ .returned (.ok hash) := by
  refine Machine.reporting_invariant_lossy
    (I := fun m _ => m.phase ≠ .returned (.ok hash)) h (by simp) ?_ ?_
  · intro r a t _ _ hs
    exact Mobile.next_ne_ok hs
  · intro r a t e _ _ hs _ _
    exact Mobile.next_ne_ok hs

/-- **One outcome.** In every run in which no write of the LAN attempt fails before a cancellation,
a call that returns `Ok` has reported exactly a completion, and a cancellation is reported only
after the flag of the request was cancelled. A call that has succeeded waits for the task that
forwards its events; if its LAN attempt has not failed it has reported exactly a completion. -/
theorem mobile_one_outcome (C : Primitives) (pauses : Nat) (secret : C.Secret)
    (metadata : TransferMetadata C) (disk : Disk) (capacity fill : Nat)
    {r : Reporting (Mobile C) (SendEvent C)}
    (h : ((mobile C pauses secret metadata disk).reporting capacity Mobile.post).Reach
      (Machine.OnInner fun r a => Mobile.honest r.inner a) ⟨{}, fill, []⟩ r) :
    (∀ hash, r.inner.phase = .returned (.ok hash) → r.placed = [.complete hash]) ∧
      (.cancelled ∈ r.placed → r.inner.cancelCalled) ∧
      ∀ hash, r.inner.phase = .waiting hash → r.inner.lanFailed = false →
        r.placed = [.complete hash] := by
  have hO : ∀ key f t, (Lan.directOpening C pauses secret metadata).start key f = some t →
      t.pc = .check ∧ t.cancelled = false := fun key f t ht => by
    obtain ⟨offset, -, rfl⟩ := Option.map_eq_some_iff.mp ht
    exact ⟨rfl, rfl⟩
  have hmono : ∀ m m' a, (mobile C pauses secret metadata disk).step m a = some m' →
      m.cancelCalled → m'.cancelCalled := fun m m' a hs hcc => by
    obtain ⟨p, -, rfl⟩ := Option.map_eq_some_iff.mp hs
    exact Bool.or_eq_true_iff.mpr (.inl hcc)
  have hinv := Machine.reporting_invariant_lossy
    (I := fun m events => Mobile.Phased m events ∧ (.cancelled ∈ events → m.cancelCalled)) h
    ⟨⟨rfl, rfl⟩, by simp⟩
    (fun r a t hok hI hs => by
      refine ⟨hI.1.step hO hok (fun p hp => by simp [hp]) (fun hp => by simp [hp]) hs, fun hmem => ?_⟩
      rcases List.mem_append.mp hmem with hold | hnew
      · exact hmono _ _ _ hs (hI.2 hold)
      · refine hmono _ _ _ hs (Mobile.cancelled_step hI.1 ?_ hs)
        simpa using hnew)
    (fun r a t e hok hI hs he _ =>
      ⟨hI.1.step hO hok (fun p hp => by simp [hp] at he) (fun hp => by simp [hp] at he) hs,
        fun hmem => hmono _ _ _ hs (hI.2 hmem)⟩)
  refine ⟨fun hash hr => ?_, hinv.2, fun hash hr hlan => ?_⟩
  · exact absurd hr (mobile_not_ok C pauses secret metadata disk capacity fill h hash)
  · have hphased := hinv.1
    rw [Mobile.Phased, hr] at hphased
    exact hphased hlan

namespace Mobile

/-- The QUIC attempt of a call that sends nothing. -/
def quicEmpty : List (Act .plain) :=
  ([.connect, .activate, .register, .writeRequest, .accepted 0, .getFlag, .proceed, .seek,
    .endOfFile, .endOfData, .finish, .join, .clearFlag, .clearActive] : List Alpn.Sender.Act).map
      .quic ++
  ([.quicReturned, .complete] : List (Act .plain))

/-- The one byte that a LAN attempt could not write. -/
def lanBreaks : List (Act .plain) :=
  let chunk : Frame .plain × Nat := (Frame.ofChunk 0 false ([1] ++ List.replicate tagLen 0), 1)
  ([.peer] : List (Act .plain)) ++
  ([.connect, .register, .activate, .inner .hello,
    .inner (.serverHello ⟨tagServerHello, .key ()⟩), .inner .metadata,
    .inner (.reply (Frame.ofText tagMetadata (acceptText 0))), .inner (.body .seek),
    .inner (.body (.read [1])), .inner (.body (.push chunk)), .inner (.body .proceed),
    .inner (.body (.dequeue chunk)), .inner (.body (.writeError [])), .clearFlag, .clearActive,
    .inner (.body (.sendError (.io [])))] : List (Lan.Direct.Act .plain)).map .lan ++
  ([.lanReturned] : List (Act .plain))

def quicByte : List (Act .plain) :=
  ([.connect, .activate, .register, .writeRequest, .accepted 0, .seek, .read [1], .sendChunk,
    .endOfFile, .getFlag, .proceed, .dequeue [1], .writeRest, .getFlag, .proceed, .endOfData,
    .finish, .join, .clearFlag, .clearActive] : List Alpn.Sender.Act).map .quic ++
  ([.quicReturned, .complete] : List (Act .plain))

/-- The calls of one file. -/
def sampleCall (source : Bytes) : Machine (Reporting (Mobile .plain) (SendEvent .plain))
    (ReportAct (Act .plain)) :=
  (mobile .plain 0 Primitives.plainSecret sampleMetadata (Disk.ofFile source)).reporting 100 post

/-- A call that finds no peer on the LAN reports the completion of its QUIC attempt. -/
theorem one_outcome_quic : ∃ r : Reporting (Mobile .plain) (SendEvent .plain),
    r.inner.phase = .waiting [] ∧ r.placed = [.complete []] ∧
      (.cancelled ∈ r.placed → r.inner.cancelCalled) := by
  obtain ⟨r, hr, he⟩ := Option.map_eq_some_iff.mp
    (show ((sampleCall []).runUnder (Machine.OnInner fun r a => honest r.inner a)
        ⟨{}, 0, []⟩ ((.noPeer :: quicEmpty).map .inner)).map
          (fun r => (r.inner.phase.hash, r.inner.lanFailed)) = some (some [], false) from rfl)
  obtain ⟨hhash, hlan⟩ := Prod.mk.inj he
  have hwaiting := MobilePhase.hash_eq_some.mp hhash
  have h := mobile_one_outcome .plain 0 Primitives.plainSecret sampleMetadata (Disk.ofFile [])
    100 0 (Machine.reach_of_runUnder _ hr)
  exact ⟨r, hwaiting, h.2.2 [] hwaiting hlan, h.2.1⟩

/-- A call whose LAN attempt could not write reports a cancellation, which nobody asked for, before
its QUIC attempt succeeds. -/
theorem not_cancelled_reported :
    ∃ r, (sampleCall [1]).Reach (fun _ _ => True) ⟨{}, 0, []⟩ r ∧
      r.placed = [.cancelled, .complete [1]] ∧ r.inner.cancelCalled = false := by
  obtain ⟨r, hr, he⟩ := Option.map_eq_some_iff.mp
    (show ((sampleCall [1]).run ⟨{}, 0, []⟩ ((lanBreaks ++ quicByte).map .inner)).map
        (fun r => (r.placed, r.inner.cancelCalled)) =
        some ([.cancelled, .complete [1]], false) from rfl)
  obtain ⟨hplaced, hcancel⟩ := Prod.mk.inj he
  exact ⟨r, Machine.reach_of_run (fun _ _ _ => trivial) hr, hplaced, hcancel⟩

end Mobile

end P2PTransfer
