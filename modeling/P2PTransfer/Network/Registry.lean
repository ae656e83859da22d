import P2PTransfer.Lan.Receiver

/-!
# The entries that a transfer leaves behind

The four functions that move a file put entries for their request id into
`TRANSFER_PAUSE_FLAGS` and `ACTIVE_TRANSFERS`, and each of their many exits has to take
them out again. The QUIC functions are modelled with their entries; here the LAN functions
get theirs, and for each function the exits that leave an entry behind are named.

## Main definitions

- `Control.clear` — neither map holds an entry
- `Lan.Registered` — a LAN function with its entries
- `Lan.direct`, `Lan.compat` — the LAN sender and the LAN receiver with their entries
- `leaks` — an exit that leaves an entry behind
-/

namespace P2PTransfer

open Transition

variable {C : Primitives}

namespace Control

def clear (c : Control) : Bool := c.registered.isNone && !c.active

@[simp, grind =] theorem clear_iff {c : Control} :
    c.clear = true ↔ c.registered = none ∧ c.active = false := by
  simp [clear]

@[simp, grind =] theorem active_register (c : Control) : c.register.active = c.active := rfl

@[simp, grind =] theorem active_unregister (c : Control) : c.unregister.active = c.active := rfl

@[simp, grind =] theorem active_activate (c : Control) : c.activate.active = true := rfl

@[simp, grind =] theorem active_deactivate (c : Control) : c.deactivate.active = false := rfl

theorem active_signal (c : Control) (change : PauseFlag → PauseFlag) :
    (c.signal change).active = c.active := by
  unfold signal
  split <;> rfl

/-- The commands put no entry into a map. -/
theorem active_command {c c' : Control} {k : Command} (hs : c.command k = some c')
    (h : c.active = false) : c'.active = false := by
  cases k with
  | pause =>
    obtain rfl := Option.some.inj hs
    rw [active_signal, h]
  | resume =>
    obtain rfl := Option.some.inj hs
    rw [active_signal, h]
  | cancelSignal =>
    obtain ⟨-, rfl⟩ := guarded_eq_some.mp hs
    exact (c.active_signal _).trans h
  | cancelDeactivate =>
    obtain ⟨-, rfl⟩ := guarded_eq_some.mp hs
    rfl
  | cancelUnregister =>
    obtain ⟨-, rfl⟩ := guarded_eq_some.mp hs
    exact h

theorem registered_command_none {c c' : Control} {k : Command} (hs : c.command k = some c')
    (h : c.registered = none) : c'.registered = none :=
  (flags_command h hs).2

theorem clear_command {c c' : Control} {k : Command} (hs : c.command k = some c')
    (h : c.clear) : c'.clear := by
  obtain ⟨hr, ha⟩ := clear_iff.mp h
  exact clear_iff.mpr ⟨registered_command_none hs hr, active_command hs ha⟩

end Control

namespace Alpn

namespace Sender

/-- The exits of `send_file_to_peer` that leave an entry behind. -/
def leaks (s : State C) : Act → Bool
  | .rejected _ | .joinError _ => !s.control.clear
  | .fail _ => !(if s.pc = .writeRequest then s.control.deactivate else s.control).clear
  | _ => false

/-- What has been taken out of the maps. -/
structure Clears (s : State C) : Prop where
  flag : s.pc = .clearActive → s.control.registered = none
  active : s.pc = .cancelFlag → s.control.active = false
  returned : s.pc = .returned → s.control.clear

theorem Clears.step {disk : Disk} {s t : State C} {a : Act} (h : Clears s)
    (ha : leaks s a = false) (hs : Sender.step disk s a = some t) : Clears t := by
  obtain ⟨h1, h2, h3⟩ := h
  cases a with
  | command c =>
    obtain ⟨control, hc, rfl⟩ := Option.map_eq_some_iff.mp hs
    exact ⟨fun hp => Control.registered_command_none hc (h1 hp),
      fun hp => Control.active_command hc (h2 hp), fun hp => Control.clear_command hc (h3 hp)⟩
  | fail e =>
    simp only [Sender.step, guarded_eq_some] at hs
    obtain ⟨g, rfl⟩ := hs
    exact ⟨by simp, by simp, fun _ => by simpa [leaks] using ha⟩
  | _ =>
    simp only [Sender.step, guarded_eq_some] at hs
    obtain ⟨g, rfl⟩ := hs
    refine ⟨?_, ?_, ?_⟩ <;> first
      | assumption
      | grind -ring -linarith [leaks]

end Sender

namespace Receiver

/-- The exits of `handle_incoming_connection` that leave an entry behind. -/
def leaks (s : State C) : Act → Bool
  | .requestError _ | .createDirError _ | .respondError _ | .joinError _ => !s.control.clear
  | _ => false

structure Clears (s : State C) : Prop where
  active : s.pc = .rejectFlag → s.control.active = false
  rejected : s.pc = .rejectRespond → s.control.clear
  flag : s.pc = .settle ∨ s.pc = .clearActive → s.control.registered = none
  returned : s.pc = .returned → s.control.clear

theorem Clears.step {outputDir : Text} {s t : State C} {a : Act} (h : Clears s)
    (ha : leaks s a = false) (hs : Receiver.step outputDir s a = some t) : Clears t := by
  obtain ⟨h1, h2, h3, h4⟩ := h
  cases a with
  | command c =>
    obtain ⟨control, hc, rfl⟩ := Option.map_eq_some_iff.mp hs
    exact ⟨fun hp => Control.active_command hc (h1 hp),
      fun hp => Control.clear_command hc (h2 hp),
      fun hp => Control.registered_command_none hc (h3 hp),
      fun hp => Control.clear_command hc (h4 hp)⟩
  | _ =>
    simp only [Receiver.step, guarded_eq_some] at hs
    obtain ⟨g, rfl⟩ := hs
    refine ⟨?_, ?_, ?_, ?_⟩ <;> first
      | assumption
      | grind -ring -linarith [leaks]

end Receiver

end Alpn

namespace Lan

/-- How far a LAN function has come with its entries. -/
inductive Stage where
  | outside
  | register
  | activate
  | inside
  | clearActive
  | cleared
  | failed
deriving DecidableEq, Repr

/-- A LAN function and the maps at its request id. What a command does to the flag object
is an action of the loop; what it does to the maps is one of these. -/
structure Registered (σ : Type) where
  inner : σ
  stage : Stage := .outside
  control : Control

namespace Direct

inductive Act (C : Primitives) where
  | connect
  | connectError
  | register
  | activate
  | inner (a : OpenAct C (Sender.Act C))
  | clearFlag
  | clearActive
  | command (c : Command)

/-- The loop of the sender has ended. -/
def ended : OpenPhase C (Sender.State C) → Bool
  | .running s => match s.pc with
    | .join | .sendError _ => true
    | _ => false
  | _ => false

/-- What the function does once it has cleaned up. -/
def afterwards : OpenAct C (Sender.Act C) → Bool
  | .body (.sendError _) | .body .join | .body (.joinError _) => true
  | _ => false

def step (O : Opening C (Sender.State C)) (disk : Disk)
    (s : Registered (OpenPhase C (Sender.State C))) :
    Act C → Option (Registered (OpenPhase C (Sender.State C)))
  | .connect => guarded (s.stage = .outside) { s with stage := .register }
  | .connectError => guarded (s.stage = .outside) { s with stage := .failed }
  | .register => guarded (s.stage = .register)
      { s with stage := .activate, control := s.control.register }
  | .activate => guarded (s.stage = .activate)
      { s with stage := .inside, control := s.control.activate }
  | .inner a => if s.stage = .cleared ∨ afterwards a = false ∧
        (s.stage = .inside ∨ s.stage = .clearActive) then
      ((O.party (sender C disk)).step s.inner a).map fun p => { s with inner := p }
    else none
  | .clearFlag => guarded (s.stage = .inside ∧ ended s.inner)
      { s with stage := .clearActive, control := s.control.unregister }
  | .clearActive => guarded (s.stage = .clearActive)
      { s with stage := .cleared, control := s.control.deactivate }
  | .command c => (s.control.command c).map fun control => { s with control := control }

/-- The opening ends with an error. -/
def refuses (O : Opening C (Sender.State C)) : OpenPhase C (Sender.State C) →
    OpenAct C (Sender.Act C) → Bool
  | .awaitHello, .serverHello f => match O.hear f with
    | .failed _ => true
    | _ => false
  | .awaitReply key, .reply f => (O.start key f).isNone
  | _, .hangup | _, .ioError _ => true
  | _, _ => false

/-- The exits of `send_file_direct_tcp` that leave an entry behind. -/
def leaks (O : Opening C (Sender.State C)) (s : Registered (OpenPhase C (Sender.State C))) :
    Act C → Bool
  | .connectError => !s.control.clear
  | .inner a => refuses O s.inner a && !s.control.clear
  | _ => false

def Returned (s : Registered (OpenPhase C (Sender.State C))) : Prop :=
  s.stage = .failed ∨ match s.inner with
    | .failed _ => True
    | .running t => t.pc = .returned
    | _ => False

/-- The part of the function that comes after its cleanup. -/
def Tail : OpenPhase C (Sender.State C) → Prop
  | .running t => t.pc = .sendComplete ∨ t.pc = .awaitComplete ∨ t.pc = .returned
  | _ => False

structure Clears (s : Registered (OpenPhase C (Sender.State C))) : Prop where
  fresh : s.stage = .outside ∨ s.stage = .register ∨ s.stage = .activate → s.inner = .hello
  flag : s.stage = .clearActive → s.control.registered = none
  cleared : s.stage = .cleared ∨ s.stage = .failed → s.control.clear
  opening : ∀ e, s.inner = .failed e → s.control.clear
  tail : Tail s.inner → s.stage = .cleared

/-- A loop is entered by a reply, or was running before. -/
theorem running_cases {O : Opening C (Sender.State C)} {disk : Disk}
    {p : OpenPhase C (Sender.State C)} {a : OpenAct C (Sender.Act C)} {u : Sender.State C}
    (hs : (O.party (sender C disk)).step p a = some (.running u)) :
    (∃ key f, O.start key f = some u) ∨
      ∃ t b, p = .running t ∧ a = .body b ∧ Sender.step disk t b = some u := by
  cases p with
  | running t =>
    cases a with
    | body b =>
      obtain ⟨u', hu, he⟩ := Option.map_eq_some_iff.mp hs
      obtain rfl := OpenPhase.running.inj he
      exact .inr ⟨t, b, rfl, rfl, hu⟩
    | _ => cases hs
  | awaitReply key =>
    cases a with
    | reply f =>
      have he : O.answered key f = .running u := Option.some.inj hs
      unfold Opening.answered at he
      split at he
      · rename_i t ht
        obtain rfl := OpenPhase.running.inj he
        exact .inl ⟨key, f, ht⟩
      · cases he
    | _ => cases hs
  | awaitHello =>
    cases a with
    | serverHello f =>
      have he : O.hear f = .running u := Option.some.inj hs
      unfold Opening.hear at he
      split at he
      · split at he <;> cases he
      · cases he
    | _ => cases hs
  | _ => cases a <;> cases hs

theorem Tail.step {O : Opening C (Sender.State C)} {disk : Disk}
    (hO : ∀ key f t, O.start key f = some t → t.pc = .check)
    {p q : OpenPhase C (Sender.State C)} {a : OpenAct C (Sender.Act C)} (h : Tail q)
    (hs : (O.party (sender C disk)).step p a = some q) : Tail p ∨ afterwards a := by
  cases q with
  | running u =>
    rcases running_cases hs with ⟨key, f, hu⟩ | ⟨t, b, rfl, rfl, ht⟩
    · simp [Tail, hO key f u hu] at h
    · cases b with
      | sendError e => exact .inr rfl
      | join => exact .inr rfl
      | joinError detail => exact .inr rfl
      | cancel =>
        obtain rfl := Option.some.inj ht
        exact .inl h
      | completeError detail =>
        obtain ⟨g, -⟩ := guarded_eq_some.mp ht
        exact .inl (g.imp_right .inl)
      | _ =>
        simp only [Sender.step, guarded_eq_some] at ht
        obtain ⟨g, rfl⟩ := ht
        left
        simp only [Tail] at h ⊢
        first
          | assumption
          | simp_all
  | _ => cases h

theorem refuses_of_failed {O : Opening C (Sender.State C)} {disk : Disk}
    {p : OpenPhase C (Sender.State C)} {a : OpenAct C (Sender.Act C)} {e : OpenError}
    (hs : (O.party (sender C disk)).step p a = some (.failed e)) : refuses O p a := by
  cases p with
  | running s =>
    cases a with
    | body a =>
      obtain ⟨t, -, ht⟩ := Option.map_eq_some_iff.mp hs
      cases ht
    | _ => cases hs
  | awaitHello =>
    cases a with
    | serverHello f =>
      have he : O.hear f = .failed e := Option.some.inj hs
      simp [refuses, he]
    | hangup => rfl
    | ioError detail => rfl
    | _ => cases hs
  | awaitReply key =>
    cases a with
    | reply f =>
      have he : O.answered key f = .failed e := Option.some.inj hs
      cases hstart : O.start key f with
      | none => simp [refuses, hstart]
      | some t => simp [Opening.answered, hstart] at he
    | hangup => rfl
    | ioError detail => rfl
    | _ => cases hs
  | _ =>
    cases a <;> first
      | rfl
      | cases hs

theorem Clears.step {O : Opening C (Sender.State C)} {disk : Disk}
    (hO : ∀ key f t, O.start key f = some t → t.pc = .check)
    {s t : Registered (OpenPhase C (Sender.State C))} {a : Act C} (h : Clears s)
    (ha : leaks O s a = false) (hs : Direct.step O disk s a = some t) : Clears t := by
  obtain ⟨h0, h1, h2, h3, h4⟩ := h
  cases a with
  | command c =>
    obtain ⟨control, hc, rfl⟩ := Option.map_eq_some_iff.mp hs
    exact ⟨h0, fun hp => Control.registered_command_none hc (h1 hp),
      fun hp => Control.clear_command hc (h2 hp),
      fun e he => Control.clear_command hc (h3 e he), h4⟩
  | inner a =>
    simp only [Direct.step, Option.ite_none_right_eq_some, Option.map_eq_some_iff] at hs
    obtain ⟨hstage, p, hp, rfl⟩ := hs
    refine ⟨fun hf => ?_, h1, h2, fun e he => ?_, fun hq => ?_⟩
    · dsimp only at hf
      rcases hf with hf | hf | hf <;> simp [hf] at hstage
    · obtain rfl : p = .failed e := he
      simpa [leaks, refuses_of_failed hp] using ha
    · rcases hstage with hc | ⟨hb, -⟩
      · exact hc
      · rcases Tail.step hO hq hp with htail | hafter
        · exact h4 htail
        · simp [hb] at hafter
  | clearFlag =>
    simp only [Direct.step, guarded_eq_some] at hs
    obtain ⟨⟨g, hended⟩, rfl⟩ := hs
    refine ⟨by simp, fun _ => rfl, by simp, fun e he => ?_, fun htail => ?_⟩
    · have he : s.inner = .failed e := he
      simp [he, ended] at hended
    · have := h4 htail
      simp [g] at this
  | clearActive =>
    simp only [Direct.step, guarded_eq_some] at hs
    obtain ⟨g, rfl⟩ := hs
    have hr := h1 g
    exact ⟨by simp, by simp, fun _ => by simp [hr], fun _ _ => by simp [hr], fun _ => rfl⟩
  | connectError =>
    simp only [Direct.step, guarded_eq_some] at hs
    obtain ⟨g, rfl⟩ := hs
    have hclear : s.control.clear := by simpa [leaks] using ha
    have hfresh := h0 (.inl g)
    exact ⟨by simp, by simp, fun _ => hclear, fun _ _ => hclear, by simp [hfresh, Tail]⟩
  | _ =>
    simp only [Direct.step, guarded_eq_some] at hs
    obtain ⟨g, rfl⟩ := hs
    have hfresh := h0 (by simp [g])
    exact ⟨fun _ => hfresh, by simp, by simp, by simp [hfresh], by simp [hfresh, Tail]⟩

end Direct

namespace Compat

inductive Act (C : Primitives) where
  | inner (a : AdmitAct C (Receiver.Act C))
  | activate
  | register
  | command (c : Command)

/-- What the function does to the maps along with its other steps. -/
def effect (c : Control) : AdmitAct C (Receiver.Act C) → Control
  | .body .hangup | .body (.readError _) | .body .writerGone => c.deactivate
  | .body (.other f) => match Receiver.verdict f with
    | .unexpectedTag _ => c.deactivate.unregister
    | _ => c.deactivate
  | .body .close => c.unregister
  | .body .sendCancel | .body .joinError | .body (.verifyError _) | .body .sendComplete
  | .body .sendMismatch => c.deactivate
  | _ => c

/-- The blocking task, which the function does not wait for while it registers. -/
def ofTask : AdmitAct C (Receiver.Act C) → Bool
  | .body .openFile | .body .diskError => true
  | _ => false

def step (A : Admission C (Receiver.State C)) (s : Registered (AdmitPhase C (Receiver.State C))) :
    Act C → Option (Registered (AdmitPhase C (Receiver.State C)))
  | .inner a => if s.stage = .outside ∨ s.stage = .inside ∨ ofTask a then
      ((A.party (receiver C)).step s.inner a).map fun p =>
        { s with inner := p, control := effect s.control a,
                 stage := match a with
                   | .reply => .activate
                   | _ => s.stage }
    else none
  | .activate => guarded (s.stage = .activate)
      { s with stage := .register, control := s.control.activate }
  | .register => guarded (s.stage = .register)
      { s with stage := .inside, control := s.control.register }
  | .command c => (s.control.command c).map fun control => { s with control := control }

/-- The function ends before it has accepted. -/
def refuses (A : Admission C (Receiver.State C)) : AdmitPhase C (Receiver.State C) →
    AdmitAct C (Receiver.Act C) → Bool
  | .awaitHello, .clientHello f => match A.hear f with
    | .failed _ => true
    | _ => false
  | .awaitMetadata key, .metadata f => match A.announced key f with
    | .failed _ => true
    | _ => false
  | _, .answer accepted => !accepted
  | _, .hangup | _, .ioError _ => true
  | _, _ => false

/-- The exits of `handle_incoming` that leave an entry behind. -/
def leaks (A : Admission C (Receiver.State C)) (s : Registered (AdmitPhase C (Receiver.State C))) :
    Act C → Bool
  | .inner (.body (.completeError _)) => s.control.active
  | .inner a => refuses A s.inner a && !s.control.clear
  | _ => false

def Returned (s : Registered (AdmitPhase C (Receiver.State C))) : Prop :=
  match s.inner with
  | .failed _ => True
  | .running t => t.pc = .returned
  | _ => False

/-- The loop of the receiver has ended, and it has let go of its flag. -/
def closed : Receiver.Pc → Bool
  | .check | .read | .forward | .close => false
  | _ => true

/-- What a running loop has taken out of the maps. -/
structure Runs (t : Receiver.State C) (stage : Stage) (c : Control) : Prop where
  entered : stage ≠ .inside → t.pc = .check ∧ t.loop = .running
  flag : closed t.pc → c.registered = none
  failed : ∀ e, t.loop = .failed e → isCancel e.text = false → c.active = false
  drained : t.pc = .drain ∨ t.pc = .returned → c.active = false

theorem Runs.step {t u : Receiver.State C} {stage : Stage} {c : Control} {a : Receiver.Act C}
    (h : Runs t stage c) (hstage : stage = .inside ∨ ofTask (.body a : AdmitAct C (Receiver.Act C)))
    (ha : ∀ detail, a = .completeError detail → c.active = false)
    (hs : Receiver.step t a = some u) : Runs u stage (effect c (.body a)) := by
  obtain ⟨h1, h2, h3, h4⟩ := h
  cases a with
  | cancel =>
    obtain rfl := Option.some.inj hs
    exact ⟨h1, h2, h3, h4⟩
  | openFile =>
    simp only [Receiver.step, guarded_eq_some] at hs
    obtain ⟨g, rfl⟩ := hs
    exact ⟨h1, h2, h3, h4⟩
  | diskError =>
    simp only [Receiver.step, guarded_eq_some] at hs
    obtain ⟨g, rfl⟩ := hs
    exact ⟨h1, h2, h3, h4⟩
  | completeError detail =>
    have hstage : stage = .inside := hstage.resolve_right (by simp [ofTask])
    have hactive := ha detail rfl
    simp only [Receiver.step, guarded_eq_some] at hs
    obtain ⟨g, rfl⟩ := hs
    exact ⟨by simp [hstage], fun _ => h2 (by simp [g, closed]), h3, fun _ => hactive⟩
  | other f =>
    have hstage : stage = .inside := hstage.resolve_right (by simp [ofTask])
    simp only [Receiver.step, guarded_eq_some] at hs
    obtain ⟨g, rfl⟩ := hs
    have hactive : (effect c (.body (.other f) : AdmitAct C (Receiver.Act C))).active = false := by
      unfold effect
      dsimp only
      split <;> rfl
    exact ⟨by simp [hstage], by simp [closed], fun _ _ _ => hactive, by simp⟩
  | close =>
    have hstage : stage = .inside := hstage.resolve_right (by simp [ofTask])
    simp only [Receiver.step, guarded_eq_some] at hs
    obtain ⟨g, rfl⟩ := hs
    refine ⟨by simp [hstage], fun _ => rfl, h3, fun hp => ?_⟩
    cases hl : t.loop with
    | failed e =>
      cases hc : isCancel e.text with
      | true => simp [hl, Receiver.LoopResult.next, hc] at hp
      | false => exact h3 e hl hc
    | _ => simp [hl, Receiver.LoopResult.next] at hp
  | seeCancel =>
    have hstage : stage = .inside := hstage.resolve_right (by simp [ofTask])
    simp only [Receiver.step, guarded_eq_some] at hs
    obtain ⟨g, rfl⟩ := hs
    refine ⟨by simp [hstage], by simp [closed], fun e he hc => ?_, by simp⟩
    obtain rfl : RecvError.cancelled = e := by simpa using he
    have hcancel : isCancel RecvError.cancelled.text = true := by decide
    simp [hcancel] at hc
  | verify =>
    have hstage : stage = .inside := hstage.resolve_right (by simp [ofTask])
    simp only [Receiver.step, guarded_eq_some] at hs
    obtain ⟨g, rfl⟩ := hs
    refine ⟨by simp [hstage], fun _ => h2 (by simp [g, closed]), h3, fun hp => ?_⟩
    dsimp only at hp
    split at hp <;> simp at hp
  | _ =>
    have hstage : stage = .inside := hstage.resolve_right (by simp [ofTask])
    simp only [Receiver.step, guarded_eq_some] at hs
    obtain ⟨g, rfl⟩ := hs
    refine ⟨by simp [hstage], ?_, ?_, ?_⟩ <;> first
      | assumption
      | grind -ring -linarith [effect, closed]

structure Clears (s : Registered (AdmitPhase C (Receiver.State C))) : Prop where
  refused : ∀ e, s.inner = .failed e → s.control.clear
  entering : s.stage = .activate ∨ s.stage = .register → ∃ t, s.inner = .running t
  running : ∀ t, s.inner = .running t → s.stage ≠ .outside ∧ Runs t s.stage s.control

theorem Runs.of_check {t : Receiver.State C} (hpc : t.pc = .check) (hloop : t.loop = .running)
    (stage : Stage) (c : Control) : Runs t stage c :=
  ⟨fun _ => ⟨hpc, hloop⟩, by simp [hpc, closed], by simp [hloop], by simp [hpc]⟩

theorem Runs.command {t : Receiver.State C} {stage : Stage} {c c' : Control} {k : Command}
    (h : Runs t stage c) (hs : c.command k = some c') : Runs t stage c' :=
  ⟨h.entered, fun hp => Control.registered_command_none hs (h.flag hp),
    fun e he hc => Control.active_command hs (h.failed e he hc),
    fun hp => Control.active_command hs (h.drained hp)⟩

theorem refuses_of_failed {A : Admission C (Receiver.State C)}
    {p : AdmitPhase C (Receiver.State C)} {a : AdmitAct C (Receiver.Act C)} {e : AdmitError}
    (hs : (A.party (receiver C)).step p a = some (.failed e)) :
    refuses A p a ∧ ∀ b, a ≠ .body b := by
  cases p with
  | running s =>
    cases a with
    | body a =>
      obtain ⟨t, -, ht⟩ := Option.map_eq_some_iff.mp hs
      cases ht
    | _ => cases hs
  | awaitHello =>
    cases a with
    | clientHello f =>
      have he : A.hear f = .failed e := Option.some.inj hs
      exact ⟨by simp [refuses, he], fun _ => nofun⟩
    | hangup => exact ⟨rfl, fun _ => nofun⟩
    | ioError detail => exact ⟨rfl, fun _ => nofun⟩
    | _ => cases hs
  | awaitMetadata key =>
    cases a with
    | metadata f =>
      have he : A.announced key f = .failed e := Option.some.inj hs
      exact ⟨by simp [refuses, he], fun _ => nofun⟩
    | hangup => exact ⟨rfl, fun _ => nofun⟩
    | ioError detail => exact ⟨rfl, fun _ => nofun⟩
    | _ => cases hs
  | asking key m =>
    cases a with
    | answer accepted =>
      cases accepted with
      | true => cases hs
      | false => exact ⟨rfl, fun _ => nofun⟩
    | _ => cases hs
  | _ =>
    cases a <;> first
      | exact ⟨rfl, fun _ => nofun⟩
      | cases hs

/-- A loop is entered by the reply, or was running before. -/
theorem running_cases {A : Admission C (Receiver.State C)} {p : AdmitPhase C (Receiver.State C)}
    {a : AdmitAct C (Receiver.Act C)} {u : Receiver.State C}
    (hs : (A.party (receiver C)).step p a = some (.running u)) :
    (a = .reply ∧ ∃ key m, u = A.start key m) ∨
      ∃ t b, p = .running t ∧ a = .body b ∧ Receiver.step t b = some u := by
  cases p with
  | running t =>
    cases a with
    | body b =>
      obtain ⟨u', hu, he⟩ := Option.map_eq_some_iff.mp hs
      obtain rfl := AdmitPhase.running.inj he
      exact .inr ⟨t, b, rfl, rfl, hu⟩
    | _ => cases hs
  | replying key m =>
    cases a with
    | reply =>
      obtain rfl := AdmitPhase.running.inj (Option.some.inj hs)
      exact .inl ⟨rfl, key, m, rfl⟩
    | _ => cases hs
  | awaitHello =>
    cases a with
    | clientHello f =>
      have he : A.hear f = .running u := Option.some.inj hs
      unfold Admission.hear at he
      split at he
      · split at he <;> cases he
      · cases he
    | _ => cases hs
  | awaitMetadata key =>
    cases a with
    | metadata f =>
      have he : A.announced key f = .running u := Option.some.inj hs
      unfold Admission.announced at he
      split at he
      · split at he
        · split at he <;> cases he
        · cases he
      · cases he
    | _ => cases hs
  | asking key m =>
    cases a with
    | answer accepted => cases accepted <;> cases hs
    | _ => cases hs
  | _ => cases a <;> cases hs

theorem running_of_running {A : Admission C (Receiver.State C)}
    {p q : AdmitPhase C (Receiver.State C)} {a : AdmitAct C (Receiver.Act C)}
    (hs : (A.party (receiver C)).step p a = some q) (h : a = .reply ∨ ∃ t, p = .running t) :
    ∃ u, q = .running u := by
  rcases h with rfl | ⟨t, rfl⟩
  · cases p with
    | replying key m =>
      obtain rfl := Option.some.inj hs
      exact ⟨_, rfl⟩
    | _ => cases hs
  · cases a with
    | body b =>
      obtain ⟨u, -, rfl⟩ := Option.map_eq_some_iff.mp hs
      exact ⟨u, rfl⟩
    | _ => cases hs

theorem Clears.step {A : Admission C (Receiver.State C)}
    (hA : ∀ key m, (A.start key m).pc = .check ∧ (A.start key m).loop = .running)
    {s t : Registered (AdmitPhase C (Receiver.State C))} {a : Act C} (h : Clears s)
    (ha : leaks A s a = false) (hs : Compat.step A s a = some t) : Clears t := by
  obtain ⟨h1, h2, h3⟩ := h
  cases a with
  | command c =>
    obtain ⟨control, hc, rfl⟩ := Option.map_eq_some_iff.mp hs
    exact ⟨fun e he => Control.clear_command hc (h1 e he), h2,
      fun t ht => ⟨(h3 t ht).1, (h3 t ht).2.command hc⟩⟩
  | activate =>
    simp only [Compat.step, guarded_eq_some] at hs
    obtain ⟨g, rfl⟩ := hs
    obtain ⟨t, ht⟩ := h2 (.inl g)
    refine ⟨fun e he => by simp [ht] at he, fun _ => ⟨t, ht⟩, fun u hu => ⟨by simp, ?_⟩⟩
    obtain ⟨hpc, hloop⟩ := (h3 u hu).2.entered (by simp [g])
    exact .of_check hpc hloop ..
  | register =>
    simp only [Compat.step, guarded_eq_some] at hs
    obtain ⟨g, rfl⟩ := hs
    obtain ⟨t, ht⟩ := h2 (.inr g)
    refine ⟨fun e he => by simp [ht] at he, by simp, fun u hu => ⟨by simp, ?_⟩⟩
    obtain ⟨hpc, hloop⟩ := (h3 u hu).2.entered (by simp [g])
    exact .of_check hpc hloop ..
  | inner a =>
    simp only [Compat.step, Option.ite_none_right_eq_some, Option.map_eq_some_iff] at hs
    obtain ⟨hstage, p, hp, rfl⟩ := hs
    refine ⟨fun e he => ?_, fun hst => ?_, fun u hu => ?_⟩
    · obtain rfl : p = .failed e := he
      obtain ⟨hr, hbody⟩ := refuses_of_failed hp
      cases a with
      | body b => exact absurd rfl (hbody b)
      | _ => simpa [leaks, hr, effect] using ha
    · refine running_of_running hp ?_
      cases a with
      | reply => exact .inl rfl
      | _ => exact .inr (h2 hst)
    · obtain rfl : p = .running u := hu
      rcases running_cases hp with ⟨rfl, key, m, rfl⟩ | ⟨t, b, ht, rfl, hb⟩
      · exact ⟨by simp, .of_check (hA key m).1 (hA key m).2 ..⟩
      · obtain ⟨hout, hruns⟩ := h3 t ht
        refine ⟨hout, hruns.step (hstage.resolve_left hout) ?_ hb⟩
        rintro detail rfl
        simpa [leaks] using ha

end Compat

/-- `send_file_direct_tcp` with its entries. -/
def direct (C : Primitives) (pauses : Nat) (secret : C.Secret) (metadata : TransferMetadata C)
    (disk : Disk) : Machine (Registered (OpenPhase C (Sender.State C))) (Direct.Act C) where
  step := Direct.step (directOpening C pauses secret metadata) disk

/-- `tcp_compat::handle_incoming` with its entries. -/
def compat (C : Primitives) (pauses : Nat) (secret : C.Secret) (fs : Files) (outputDir : Text) :
    Machine (Registered (AdmitPhase C (Receiver.State C))) (Compat.Act C) where
  step := Compat.step (compatAdmission C pauses secret fs outputDir)

theorem direct_clear {pauses : Nat} {secret : C.Secret} {metadata : TransferMetadata C}
    {disk : Disk} {c : Control} {s : Registered (OpenPhase C (Sender.State C))}
    (h : (direct C pauses secret metadata disk).Reach
      (fun s a => Direct.leaks (directOpening C pauses secret metadata) s a = false)
      { inner := .hello, control := c } s) (hr : Direct.Returned s) : s.control.clear := by
  have hstart : ∀ key f t, (directOpening C pauses secret metadata).start key f = some t →
      t.pc = .check := fun key f t ht => by
    obtain ⟨offset, -, rfl⟩ := Option.map_eq_some_iff.mp ht
    rfl
  have hinv := h.invariant (I := Direct.Clears)
    ⟨fun _ => rfl, by simp, by simp, by simp, by simp [Direct.Tail]⟩
    fun _ _ _ hI ha hs => hI.step hstart ha hs
  rcases hr with hf | hr
  · exact hinv.cleared (.inr hf)
  · cases hi : s.inner with
    | failed e => exact hinv.opening e hi
    | running t =>
      rw [hi] at hr
      exact hinv.cleared (.inl (hinv.tail (by rw [hi]; exact .inr (.inr hr))))
    | _ => simp [hi] at hr

theorem compat_clear {pauses : Nat} {secret : C.Secret} {fs : Files} {outputDir : Text}
    {c : Control} {s : Registered (AdmitPhase C (Receiver.State C))}
    (h : (compat C pauses secret fs outputDir).Reach
      (fun s a => Compat.leaks (compatAdmission C pauses secret fs outputDir) s a = false)
      { inner := .awaitHello, control := c } s) (hr : Compat.Returned s) : s.control.clear := by
  have hinv := h.invariant (I := Compat.Clears) ⟨by simp, by simp, by simp⟩
    fun _ _ _ hI ha hs => hI.step (fun _ _ => ⟨rfl, rfl⟩) ha hs
  cases hi : s.inner with
  | failed e => exact hinv.refused e hi
  | running t =>
    have hpc : t.pc = .returned := by simpa [Compat.Returned, hi] using hr
    obtain ⟨-, hruns⟩ := hinv.running t hi
    exact Control.clear_iff.mpr
      ⟨hruns.flag (by simp [hpc, Compat.closed]), hruns.drained (.inr hpc)⟩
  | _ => simp [Compat.Returned, hi] at hr

end Lan

/-- **Registries.** In every run of each of the four functions, from any content of the
two maps, in which none of the leaking exits is taken, neither map holds an entry for the
request id once the function has returned. -/
theorem no_stale_entries (C : Primitives) (c : Control) :
    (∀ request disk (s : Alpn.Sender.State C), (Alpn.sender C request disk).Reach
      (fun s a => Alpn.Sender.leaks s a = false) { control := c } s →
      s.pc = .returned → s.control.clear) ∧
    (∀ outputDir fs (s : Alpn.Receiver.State C), (Alpn.receiver C outputDir).Reach
      (fun s a => Alpn.Receiver.leaks s a = false) { files := fs, control := c } s →
      s.pc = .returned → s.control.clear) ∧
    (∀ pauses secret metadata disk s, (Lan.direct C pauses secret metadata disk).Reach
      (fun s a => Lan.Direct.leaks (Lan.directOpening C pauses secret metadata) s a = false)
      { inner := .hello, control := c } s → Lan.Direct.Returned s → s.control.clear) ∧
    ∀ pauses secret fs outputDir s, (Lan.compat C pauses secret fs outputDir).Reach
      (fun s a => Lan.Compat.leaks (Lan.compatAdmission C pauses secret fs outputDir) s a = false)
      { inner := .awaitHello, control := c } s → Lan.Compat.Returned s → s.control.clear := by
  refine ⟨fun request disk s h hr => ?_, fun outputDir fs s h hr => ?_,
    fun pauses secret metadata disk s h hr => Lan.direct_clear h hr,
    fun pauses secret fs outputDir s h hr => Lan.compat_clear h hr⟩
  · have hinv := h.invariant (I := Alpn.Sender.Clears) ⟨by simp, by simp, by simp⟩
      fun _ _ _ hI ha hs => hI.step ha hs
    exact hinv.returned hr
  · have hinv := h.invariant (I := Alpn.Receiver.Clears) ⟨by simp, by simp, by simp, by simp⟩
      fun _ _ _ hI ha hs => hI.step ha hs
    exact hinv.returned hr

/-- A request for nothing. -/
def sampleRequest : Alpn.TransferRequest := ⟨[], [], 0, false⟩

def sampleMetadata : TransferMetadata .plain := ⟨[], [], 0, 0, 0, [], 0, false, [0, 0, 0, 0], false⟩

def quicSendCancelled : List Alpn.Sender.Act :=
  [.connect, .activate, .register, .writeRequest, .accepted 0, .command .cancelSignal, .getFlag,
    .seeCancel, .cancelActive, .cancelFlag]

def quicReceiveRejected : List Alpn.Receiver.Act :=
  [.readRequest sampleRequest, .activate, .register, .answer false, .rejectActive, .rejectFlag,
    .rejectRespond]

def lanSendCancelled : List (Lan.Direct.Act .plain) :=
  [.connect, .register, .activate, .inner .hello,
    .inner (.serverHello ⟨tagServerHello, .key ()⟩), .inner .metadata,
    .inner (.reply (Frame.ofText tagMetadata (acceptText 0))), .inner (.body .cancel),
    .inner (.body .seeCancel), .clearFlag, .clearActive, .inner (.body (.sendError .cancelled))]

def lanReceiveCancelled : List (Lan.Compat.Act .plain) :=
  [.inner (.clientHello ⟨tagClientHello, .key ()⟩), .inner .hello,
    .inner (.metadata ⟨tagMetadata, .metadata sampleMetadata⟩), .inner (.answer true),
    .inner .reply, .activate, .register, .inner (.body .cancel), .inner (.body .seeCancel),
    .inner (.body .openFile), .inner (.body .close), .inner (.body .sendCancel),
    .inner (.body .flush), .inner (.body (.drained .cancelled))]

/-- Nothing is left of a transfer that was cancelled or rejected. -/
theorem cancelled_leaves_nothing :
    (∃ s : Alpn.Sender.State .plain, s.pc = .returned ∧ s.control.clear) ∧
    (∃ s : Alpn.Receiver.State .plain, s.pc = .returned ∧ s.control.clear) ∧
    (∃ s : Lan.Registered (OpenPhase .plain (Lan.Sender.State .plain)),
      Lan.Direct.Returned s ∧ s.control.clear) ∧
    ∃ s : Lan.Registered (AdmitPhase .plain (Lan.Receiver.State .plain)),
      Lan.Compat.Returned s ∧ s.control.clear := by
  refine ⟨?_, ?_, ?_, ?_⟩
  · obtain ⟨s, hs, hpc⟩ := Option.map_eq_some_iff.mp
      (show ((Alpn.sender .plain sampleRequest (Disk.ofFile [])).runUnder
        (fun s a => Alpn.Sender.leaks s a = false) { control := {} } quicSendCancelled).map
          (fun s => s.pc) = some .returned from rfl)
    exact ⟨s, hpc, (no_stale_entries .plain {}).1 _ _ s (Machine.reach_of_runUnder _ hs) hpc⟩
  · obtain ⟨s, hs, hpc⟩ := Option.map_eq_some_iff.mp
      (show ((Alpn.receiver .plain []).runUnder (fun s a => Alpn.Receiver.leaks s a = false)
        { files := noFiles, control := {} } quicReceiveRejected).map (fun s => s.pc) =
          some .returned from rfl)
    exact ⟨s, hpc, (no_stale_entries .plain {}).2.1 _ _ s (Machine.reach_of_runUnder _ hs) hpc⟩
  · obtain ⟨s, hs, hpc⟩ := Option.map_eq_some_iff.mp
      (show ((Lan.direct .plain 0 Primitives.plainSecret sampleMetadata (Disk.ofFile [])).runUnder
        (fun s a => Lan.Direct.leaks (Lan.directOpening .plain 0 Primitives.plainSecret
          sampleMetadata) s a = false) { inner := .hello, control := {} } lanSendCancelled).map
          (fun s => s.inner.loop.map fun t => t.pc) = some (some .returned) from rfl)
    obtain ⟨t, hloop, hret⟩ := Option.map_eq_some_iff.mp hpc
    have hr : Lan.Direct.Returned s := by
      refine .inr ?_
      rw [OpenPhase.loop_eq_some.mp hloop]
      exact hret
    exact ⟨s, hr, (no_stale_entries .plain {}).2.2.1 _ _ _ _ s (Machine.reach_of_runUnder _ hs) hr⟩
  · obtain ⟨s, hs, hpc⟩ := Option.map_eq_some_iff.mp
      (show ((Lan.compat .plain 0 Primitives.plainSecret noFiles []).runUnder
        (fun s a => Lan.Compat.leaks (Lan.compatAdmission .plain 0 Primitives.plainSecret noFiles [])
          s a = false) { inner := .awaitHello, control := {} } lanReceiveCancelled).map
          (fun s => s.inner.loop.map fun t => t.pc) = some (some .returned) from rfl)
    obtain ⟨t, hloop, hret⟩ := Option.map_eq_some_iff.mp hpc
    have hr : Lan.Compat.Returned s := by
      unfold Lan.Compat.Returned
      rw [AdmitPhase.loop_eq_some.mp hloop]
      exact hret
    exact ⟨s, hr, (no_stale_entries .plain {}).2.2.2 _ _ _ _ s (Machine.reach_of_runUnder _ hs) hr⟩

/-- A rejected QUIC send and a LAN send whose peer hangs up leave both entries behind. -/
theorem refused_leaves_entries :
    (∃ s : Alpn.Sender.State .plain, (Alpn.sender .plain sampleRequest (Disk.ofFile [])).Reach
      (fun _ _ => True) {} s ∧ s.pc = .returned ∧ s.control.registered.isSome ∧
        s.control.active) ∧
    ∃ s, (Lan.direct .plain 0 Primitives.plainSecret sampleMetadata (Disk.ofFile [])).Reach
      (fun _ _ => True) { inner := .hello, control := {} } s ∧ Lan.Direct.Returned s ∧
        s.control.registered.isSome ∧ s.control.active := by
  constructor
  · have hrun : (Alpn.sender .plain sampleRequest (Disk.ofFile [])).run {}
        [.connect, .activate, .register, .writeRequest, .rejected 0] = some _ := rfl
    exact ⟨_, Machine.reach_of_run (fun _ _ _ => trivial) hrun, rfl, rfl, rfl⟩
  · have hrun : (Lan.direct .plain 0 Primitives.plainSecret sampleMetadata (Disk.ofFile [])).run
        { inner := .hello, control := {} }
        [.connect, .register, .activate, .inner .hello, .inner .hangup] = some _ := rfl
    exact ⟨_, Machine.reach_of_run (fun _ _ _ => trivial) hrun, .inr trivial, rfl, rfl⟩

end P2PTransfer
