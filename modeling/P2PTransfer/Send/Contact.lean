import P2PTransfer.Send.Mobile

/-!
# The queue of the desktop application

`send_to_contact`: a loop that tries the LAN and then QUIC until one of them succeeds, or
the text of an error says that the transfer was refused or cancelled. The loop waits with
a flag of its own; the LAN attempt looks up whatever flag the map holds when it is
accepted, and a QUIC attempt puts a new one there.

## Main definitions

- `Contact`, `Contact.Act`, `contact` — the function with its attempts and the maps
- `Contact.Settled` — where a cancellation that completes takes effect
-/

namespace P2PTransfer

open Transition

variable {C : Primitives}

/-- The errors of a LAN attempt after which the loop ends. -/
def desktopLanFinal (e : Text) : Bool :=
  Alpn.contains e "rejected".toList || e = "REJECTED".toList

/-- The errors of a QUIC attempt after which the loop ends. -/
def desktopQuicFinal (e : Text) : Bool :=
  Alpn.contains e "REJECTED".toList || Alpn.contains e "cancelled".toList

inductive ContactPhase (C : Primitives) where
  | registerFlag
  | registerActive
  | check
  | lookup
  | connect
  | lan (handle : Option (Option Nat)) (p : OpenPhase C (Lan.Sender.State C))
  | choose
  | quic (s : Alpn.Sender.State C)
  | sleep
  | clearActive (r : Except Text C.Digest)
  | clearFlag (r : Except Text C.Digest)
  | returned (r : Except Text C.Digest)

/-- The hash of a call that has succeeded. -/
def ContactPhase.hash {C : Primitives} : ContactPhase C → Option C.Digest
  | .returned (.ok hash) => some hash
  | _ => none

theorem ContactPhase.hash_eq_some {C : Primitives} {p : ContactPhase C} {hash : C.Digest} :
    p.hash = some hash ↔ p = .returned (.ok hash) := by
  cases p with
  | returned r => cases r <;> simp [ContactPhase.hash]
  | _ => simp [ContactPhase.hash]

/-- The call, with the maps at its request id and the number of its own flag. -/
structure Contact (C : Primitives) where
  phase : ContactPhase C := .registerFlag
  control : Control
  own : Nat := 0

namespace Contact

inductive Act (C : Primitives) where
  | registerFlag
  | registerActive
  | proceed
  | seeCancel
  | tryLan
  | skipLan
  | connected
  | connectError
  | lan (a : OpenAct C (Lan.Sender.Act C))
  | getFlag
  | lanReturned
  | tryQuic
  | skipQuic
  | quic (a : Alpn.Sender.Act)
  | quicReturned
  | wake
  | clearActive
  | clearFlag
  | command (c : Command)

/-- The steps of the reader task of a LAN attempt. -/
def lanReads : OpenAct C (Lan.Sender.Act C) → Bool
  | .body (.hashPrefix _) | .body .seek | .body (.read _) | .body .endOfFile | .body (.push _)
  | .body .pushFailed | .body (.readError _) => true
  | _ => false

/-- The steps of the reader task of a QUIC attempt, and of what it leaves behind. -/
def quicReads : Alpn.Sender.Act → Bool
  | .hashPrefix _ | .seek | .read _ | .endOfFile | .sendChunk | .sendFailed | .readError _
  | .dropStream => true
  | _ => false

/-- The loop of a LAN attempt runs once it has looked up its flag, which is not its own
to change. -/
def lanAdmits (handle : Option (Option Nat)) : OpenAct C (Lan.Sender.Act C) → Bool
  | .body .pause | .body .resume | .body .cancel => false
  | .body a => handle.isSome || lanReads (.body a)
  | _ => true

/-- A LAN attempt as its flag is now. -/
def polled (c : Control) (handle : Option (Option Nat)) :
    OpenPhase C (Lan.Sender.State C) → OpenPhase C (Lan.Sender.State C)
  | .running t => .running { t with paused := c.paused handle.join,
                                    cancelled := c.cancelled handle.join }
  | p => p

def lanReturns : OpenPhase C (Lan.Sender.State C) → Option (Except Text C.Digest)
  | .failed e => some (.error e.text)
  | .running t =>
    if t.pc = .returned then t.result.map (Except.mapError Lan.SendError.text) else none
  | _ => none

def afterLan : Except Text C.Digest → ContactPhase C
  | .ok hash => .clearActive (.ok hash)
  | .error e => if desktopLanFinal e then .clearActive (.error e) else .choose

def afterQuic : Except Text C.Digest → ContactPhase C
  | .ok hash => .clearActive (.ok hash)
  | .error e => if desktopQuicFinal e then .clearActive (.error e) else .sleep

/-- One step of a call that may have a QUIC endpoint. -/
def step (O : Opening C (Lan.Sender.State C)) (disk : Disk) (endpoint : Bool) (n : Contact C) :
    Act C → Option (Contact C)
  | .registerFlag => match n.phase with
    | .registerFlag => some { phase := .registerActive, control := n.control.register,
                              own := n.control.flags.length }
    | _ => none
  | .registerActive => match n.phase with
    | .registerActive => some { n with phase := .check, control := n.control.activate }
    | _ => none
  | .proceed => match n.phase with
    | .check => guarded (¬ n.control.cancelled (some n.own) ∧ ¬ n.control.paused (some n.own))
        { n with phase := .lookup }
    | _ => none
  | .seeCancel => match n.phase with
    | .check => guarded (n.control.cancelled (some n.own))
        { n with phase := .clearActive (.error "REJECTED".toList) }
    | .sleep => guarded (n.control.cancelled (some n.own))
        { n with phase := .clearActive (.error "Transfer cancelled by user".toList) }
    | _ => none
  | .tryLan => match n.phase with
    | .lookup => some { n with phase := .connect }
    | _ => none
  | .skipLan => match n.phase with
    | .lookup => some { n with phase := .choose }
    | _ => none
  | .connected => match n.phase with
    | .connect => some { n with phase := .lan none .hello }
    | _ => none
  | .connectError => match n.phase with
    | .connect => some { n with phase := .choose }
    | _ => none
  | .lan a => match n.phase with
    | .lan handle p => if lanAdmits handle a then
        ((O.party (Lan.sender C disk)).step (polled n.control handle p) a).map fun q =>
          { n with phase := .lan handle q }
      else none
    | _ => none
  | .getFlag => match n.phase with
    | .lan none (.running t) =>
      some { n with phase := .lan (some n.control.registered) (.running t) }
    | _ => none
  | .lanReturned => match n.phase with
    | .lan _ p => (lanReturns p).map fun r => { n with phase := afterLan r }
    | _ => none
  | .tryQuic => match n.phase with
    | .choose => guarded (endpoint = true) { n with phase := .quic { control := n.control } }
    | _ => none
  | .skipQuic => match n.phase with
    | .choose => some { n with phase := .sleep }
    | _ => none
  | .quic a => match n.phase with
    | .quic s => match a with
      | .command _ => none
      | _ => (Alpn.Sender.step disk { s with control := n.control } a).map fun t =>
          { n with phase := .quic t, control := t.control }
    | _ => none
  | .quicReturned => match n.phase with
    | .quic s => (Alpn.returns s).map fun r => { n with phase := afterQuic r }
    | _ => none
  | .wake => match n.phase with
    | .sleep => some { n with phase := .check }
    | _ => none
  | .clearActive => match n.phase with
    | .clearActive r => some { n with phase := .clearFlag r, control := n.control.deactivate }
    | _ => none
  | .clearFlag => match n.phase with
    | .clearFlag r => some { n with phase := .returned r, control := n.control.unregister }
    | _ => none
  | .command c => (n.control.command c).map fun control => { n with control := control }

/-- The steps that begin an attempt, or put an entry into a map. -/
def Act.forbidden : Act C → Bool
  | .registerFlag | .registerActive | .tryLan | .tryQuic | .quic .activate | .quic .register => true
  | _ => false

/-- The steps of the function itself, as opposed to those of the reader task of an attempt
and of the user. -/
def Act.own : Act C → Bool
  | .command _ => false
  | .quic a => !quicReads a
  | .lan a => !lanReads a
  | _ => true

end Contact

/-- `send_to_contact`. -/
def contact (C : Primitives) (pauses : Nat) (secret : C.Secret) (metadata : TransferMetadata C)
    (disk : Disk) (endpoint : Bool) : Machine (Contact C) (Contact.Act C) where
  step := Contact.step (Lan.directOpening C pauses secret metadata) disk endpoint

namespace Contact

/-- A LAN attempt that is bound to end with an error: `last` says that no other attempt
follows one. -/
inductive Ending (c : Control) (last : Prop) (handle : Option Nat) (t : Lan.Sender.State C) : Prop
  | loop : (t.pc = .check ∨ t.pc = .dequeue ∨ t.pc = .write) → c.cancelled handle → last →
      Ending c last handle t
  | join (detail : Text) : t.pc = .join → t.reader = .failed detail →
      (last ∨ desktopLanFinal detail) → Ending c last handle t
  | sendError (e : Lan.SendError) : t.pc = .sendError e → (last ∨ desktopLanFinal e.text) →
      Ending c last handle t
  | returned (e : Lan.SendError) : t.pc = .returned → t.result = some (.error e) →
      (last ∨ desktopLanFinal e.text) → Ending c last handle t

/-- A QUIC attempt that is bound to end with an error. -/
inductive Stopping (c : Control) (last : Prop) (s : Alpn.Sender.State C) : Prop
  | loop : s.pc.polls → c.cancelled s.flag → Stopping c last s
  | join (detail : Text) : s.pc = .join → s.reader = .failed detail →
      (last ∨ desktopQuicFinal detail) → Stopping c last s
  | clear : (s.pc = .cancelActive ∨ s.pc = .cancelFlag) → Stopping c last s
  | returned (e : Alpn.SendError) : s.pc = .returned → s.result = some (.error e) →
      (last ∨ desktopQuicFinal e.text) → Stopping c last s

/-- How far an attempt that is ending is from its end. -/
def lanRank : Lan.Sender.Pc → Nat
  | .write => 9
  | .check | .dequeue => 8
  | .sendError _ | .join => 7
  | _ => 6

def quicRank : Alpn.Sender.Pc → Nat
  | .checkFlag | .dequeue | .write => 8
  | .cancelActive => 7
  | .cancelFlag | .join => 6
  | _ => 5

def phaseRank : ContactPhase C → Nat
  | .clearFlag _ => 1
  | .clearActive _ => 2
  | .check => 3
  | .sleep => 4
  | .choose => 5
  | .lan _ (.failed _) => 6
  | .lan _ (.running t) => lanRank t.pc
  | .quic s => quicRank s.pc
  | _ => 0

/-- The flag of the loop is cancelled. -/
def Seen (n : Contact C) : Prop := n.control.cancelled (some n.own)

/-- A cancellation that completes here takes effect: the loop is waiting and its own flag
is cancelled, or the attempt in progress is bound to fail and no other one follows. -/
def Settled (endpoint : Bool) (n : Contact C) : Prop :=
  match n.phase with
  | .check | .sleep => n.Seen
  | .choose => endpoint = false ∧ n.Seen
  | .lan _ (.failed e) => (endpoint = false ∧ n.Seen) ∨ desktopLanFinal e.text
  | .lan (some handle) (.running t) => Ending n.control (endpoint = false ∧ n.Seen) handle t
  | .quic s => Stopping n.control n.Seen s
  | .clearActive r | .clearFlag r | .returned r => ∃ e, r = .error e
  | _ => False

theorem Ending.step {disk : Disk} {c : Control} {last : Prop} {handle : Option Nat}
    {t u : Lan.Sender.State C} {a : Lan.Sender.Act C} {paused : Bool}
    (h : Ending c last handle t) (ha : lanAdmits (some handle) (.body a))
    (hs : Lan.Sender.step disk { t with paused := paused, cancelled := c.cancelled handle } a =
      some u) :
    Ending c last handle u ∧ (lanReads (.body a) = false → lanRank u.pc < lanRank t.pc) := by
  cases a with
  | pause => cases ha
  | resume => cases ha
  | cancel => cases ha
  | seeCancel =>
    obtain ⟨⟨g, -⟩, rfl⟩ := guarded_eq_some.mp hs
    cases h with
    | loop _ _ hl =>
      refine ⟨.sendError .cancelled rfl (.inl hl), fun _ => ?_⟩
      rcases g with g | g <;> simp [show t.pc = _ from g, lanRank]
    | join _ hp => rcases g with g | g <;> simp [hp] at g
    | sendError _ hp => rcases g with g | g <;> simp [hp] at g
    | returned _ hp => rcases g with g | g <;> simp [hp] at g
  | write item =>
    obtain ⟨⟨g, -⟩, rfl⟩ := guarded_eq_some.mp hs
    cases h with
    | loop _ hc hl =>
      exact ⟨.loop (.inl rfl) hc hl, fun _ => by simp [show t.pc = _ from g, lanRank]⟩
    | join _ hp => simp [hp] at g
    | sendError _ hp => simp [hp] at g
    | returned _ hp => simp [hp] at g
  | writeError detail =>
    obtain ⟨g, rfl⟩ := guarded_eq_some.mp hs
    cases h with
    | loop _ _ hl =>
      refine ⟨.sendError (.io detail) rfl (.inl hl), fun _ => ?_⟩
      simp [show t.pc = _ from g, lanRank]
    | join _ hp => simp [hp] at g
    | sendError _ hp => simp [hp] at g
    | returned _ hp => simp [hp] at g
  | sendError e =>
    obtain ⟨g, rfl⟩ := guarded_eq_some.mp hs
    cases h with
    | loop hp => rcases hp with hp | hp | hp <;> simp [hp] at g
    | join _ hp => simp [hp] at g
    | sendError e' hp hf =>
      obtain rfl : e' = e := by simpa [hp] using g
      exact ⟨.returned e' rfl rfl hf, fun _ => by simp [hp, lanRank]⟩
    | returned _ hp => simp [hp] at g
  | joinError detail =>
    obtain ⟨⟨g, hr⟩, rfl⟩ := guarded_eq_some.mp hs
    cases h with
    | loop hp => rcases hp with hp | hp | hp <;> simp [hp] at g
    | join d hp hd hf =>
      obtain rfl : d = detail := by simpa [hd] using hr
      exact ⟨.returned (.reader d) rfl rfl hf, fun _ => by simp [hp, lanRank]⟩
    | sendError _ hp => simp [hp] at g
    | returned _ hp => simp [hp] at g
  | completeError detail =>
    obtain ⟨g, -⟩ := guarded_eq_some.mp hs
    exfalso
    cases h with
    | loop hp => rcases hp with hp | hp | hp <;> simp [hp] at g
    | join _ hp => simp [hp] at g
    | sendError _ hp => simp [hp] at g
    | returned _ hp => simp [hp] at g
  | _ =>
    simp only [Lan.Sender.step, guarded_eq_some] at hs
    obtain ⟨g, rfl⟩ := hs
    cases h with
    | loop hp hc hl =>
      first
        | exact ⟨.loop hp hc hl, by simp [lanReads]⟩
        | (rcases hp with hp | hp | hp <;> simp [hp, hc] at g)
    | join d hp hd hf =>
      first
        | exact ⟨.join d hp hd hf, by simp [lanReads]⟩
        | simp [hp, hd] at g
    | sendError e hp hf =>
      first
        | exact ⟨.sendError e hp hf, by simp [lanReads]⟩
        | simp [hp] at g
    | returned e hp he hf =>
      first
        | exact ⟨.returned e hp he hf, by simp [lanReads]⟩
        | simp [hp] at g

theorem Stopping.step {disk : Disk} {c : Control} {last : Prop} {s t : Alpn.Sender.State C}
    {a : Alpn.Sender.Act} (h : Stopping c last s) (ha : ∀ k, a ≠ .command k)
    (hs : Alpn.Sender.step disk { s with control := c } a = some t) :
    Stopping t.control last t ∧ t.control.flags = c.flags ∧ a ≠ .activate ∧ a ≠ .register ∧
      (quicReads a = false → quicRank t.pc < quicRank s.pc) := by
  cases a with
  | command k => exact absurd rfl (ha k)
  | seeCancel =>
    obtain ⟨⟨g, -⟩, rfl⟩ := guarded_eq_some.mp hs
    refine ⟨.clear (.inl rfl), rfl, by simp, by simp, fun _ => ?_⟩
    rcases Alpn.Sender.Pc.polls_iff.mp g with hp | hp | hp <;>
      simp [show s.pc = _ from hp, quicRank]
  | cancelActive =>
    obtain ⟨g, rfl⟩ := guarded_eq_some.mp hs
    exact ⟨.clear (.inr rfl), rfl, by simp, by simp, by simp [show s.pc = _ from g, quicRank]⟩
  | cancelFlag =>
    obtain ⟨g, rfl⟩ := guarded_eq_some.mp hs
    exact ⟨.returned .cancelled rfl rfl (.inr (by decide)), rfl, by simp, by simp,
      by simp [show s.pc = _ from g, quicRank]⟩
  | joinError detail =>
    obtain ⟨⟨g, hr⟩, rfl⟩ := guarded_eq_some.mp hs
    cases h with
    | loop hp => simp [show s.pc = _ from g, Alpn.Sender.Pc.polls] at hp
    | join d _ hd hf =>
      obtain rfl : d = detail := by simpa [hd] using hr
      exact ⟨.returned (.reader d) rfl rfl hf, rfl, by simp, by simp,
        by simp [show s.pc = _ from g, quicRank]⟩
    | clear hp => rcases hp with hp | hp <;> simp [hp] at g
    | returned _ hp => simp [hp] at g
  | writePart k =>
    obtain ⟨⟨g, hc', -⟩, -⟩ := guarded_eq_some.mp hs
    exfalso
    cases h with
    | loop _ hc => exact hc' hc
    | join _ hp => simp [hp] at g
    | clear hp => rcases hp with hp | hp <;> simp [hp] at g
    | returned _ hp => simp [hp] at g
  | fail e =>
    obtain ⟨⟨g, hw⟩, -⟩ := guarded_eq_some.mp hs
    exfalso
    cases h with
    | loop hp hc =>
      rcases Alpn.Sender.Pc.polls_iff.mp hp with hp | hp | hp
      · cases e <;> simp [hp, Alpn.Sender.strikes] at g
      · cases e <;> simp [hp, Alpn.Sender.strikes] at g
      · exact hw hp hc
    | join _ hp => cases e <;> simp [hp, Alpn.Sender.strikes] at g
    | clear hp => rcases hp with hp | hp <;> cases e <;> simp [hp, Alpn.Sender.strikes] at g
    | returned _ hp => cases e <;> simp [hp, Alpn.Sender.strikes] at g
  | _ =>
    simp only [Alpn.Sender.step, guarded_eq_some] at hs
    obtain ⟨g, rfl⟩ := hs
    cases h with
    | loop hp hc =>
      first
        | exact ⟨.loop hp hc, rfl, by simp, by simp, by simp [quicReads]⟩
        | (exfalso
           rcases Alpn.Sender.Pc.polls_iff.mp hp with hp | hp | hp <;>
             simp [hp, Alpn.Sender.State.seesCancel, hc] at g)
    | join d hp hd hf =>
      first
        | exact ⟨.join d hp hd hf, rfl, by simp, by simp, by simp [quicReads]⟩
        | simp [hp, hd] at g
    | clear hp =>
      first
        | exact ⟨.clear hp, rfl, by simp, by simp, by simp [quicReads]⟩
        | (rcases hp with hp | hp <;> simp [hp] at g)
    | returned e hp he hf =>
      first
        | exact ⟨.returned e hp he hf, rfl, by simp, by simp, by simp [quicReads]⟩
        | simp [hp] at g

theorem Ending.mono {c c' : Control} {last last' : Prop} {handle : Option Nat}
    {t : Lan.Sender.State C} (h : Ending c last handle t)
    (hc : ∀ i, c.cancelled i → c'.cancelled i) (hl : last → last') : Ending c' last' handle t := by
  cases h with
  | loop hp hcan h => exact .loop hp (hc _ hcan) (hl h)
  | join d hp hd hf => exact .join d hp hd (hf.imp_left hl)
  | sendError e hp hf => exact .sendError e hp (hf.imp_left hl)
  | returned e hp he hf => exact .returned e hp he (hf.imp_left hl)

theorem Stopping.mono {c c' : Control} {last last' : Prop} {s : Alpn.Sender.State C}
    (h : Stopping c last s) (hc : ∀ i, c.cancelled i → c'.cancelled i) (hl : last → last') :
    Stopping c' last' s := by
  cases h with
  | loop hp hcan => exact .loop hp (hc _ hcan)
  | join d hp hd hf => exact .join d hp hd (hf.imp_left hl)
  | clear hp => exact .clear hp
  | returned e hp he hf => exact .returned e hp he (hf.imp_left hl)

/-- Nothing takes a cancel back. -/
theorem Settled.mono {endpoint : Bool} {n : Contact C} {c : Control} (h : Settled endpoint n)
    (hc : ∀ i, n.control.cancelled i → c.cancelled i) :
    Settled endpoint { n with control := c } := by
  have hseen : n.Seen → Seen { n with control := c } := hc _
  have hlast : endpoint = false ∧ n.Seen → endpoint = false ∧ Seen { n with control := c } :=
    And.imp_right hseen
  obtain ⟨phase, control, own⟩ := n
  cases phase with
  | check => exact hseen h
  | sleep => exact hseen h
  | choose => exact hlast h
  | lan handle p =>
    cases p with
    | failed e => exact Or.imp_left hlast h
    | running t =>
      cases handle with
      | none => cases h
      | some handle => exact Ending.mono h hc hlast
    | _ => cases handle <;> cases h
  | quic s => exact Stopping.mono h hc hseen
  | clearActive r => exact h
  | clearFlag r => exact h
  | returned r => exact h
  | _ => cases h

/-- The error of an attempt after which no other one follows, or that ends the loop. -/
theorem settled_afterLan {endpoint : Bool} {n : Contact C} {e : Text}
    (h : (endpoint = false ∧ n.Seen) ∨ desktopLanFinal e) :
    Settled endpoint ({ n with phase := afterLan (.error e) } : Contact C) := by
  unfold afterLan
  by_cases hf : desktopLanFinal e
  · simp only [hf, if_true]
    exact ⟨e, rfl⟩
  · simp only [hf]
    exact h.resolve_right hf

theorem settled_afterQuic {endpoint : Bool} {n : Contact C} {e : Text}
    (h : n.Seen ∨ desktopQuicFinal e) :
    Settled endpoint ({ n with phase := afterQuic (.error e) } : Contact C) := by
  unfold afterQuic
  by_cases hf : desktopQuicFinal e
  · simp only [hf, if_true]
    exact ⟨e, rfl⟩
  · simp only [hf]
    exact h.resolve_right hf

theorem Ending.lanReturns {c : Control} {last : Prop} {handle : Option Nat}
    {t : Lan.Sender.State C} {r : Except Text C.Digest} (h : Ending c last handle t)
    (hr : lanReturns (.running t) = some r) :
    ∃ e, r = .error e ∧ (last ∨ desktopLanFinal e) := by
  simp only [Contact.lanReturns, Option.ite_none_right_eq_some, Option.map_eq_some_iff] at hr
  obtain ⟨hpc, res, hres, rfl⟩ := hr
  cases h with
  | loop hp => rcases hp with hp | hp | hp <;> simp [hp] at hpc
  | join _ hp => simp [hp] at hpc
  | sendError _ hp => simp [hp] at hpc
  | returned e _ he hf =>
    obtain rfl := Option.some.inj (he.symm.trans hres)
    exact ⟨e.text, rfl, hf⟩

theorem Stopping.returns {c : Control} {last : Prop} {s : Alpn.Sender.State C}
    {r : Except Text C.Digest} (h : Stopping c last s) (hr : Alpn.returns s = some r) :
    ∃ e, r = .error e ∧ (last ∨ desktopQuicFinal e) := by
  simp only [Alpn.returns, Option.ite_none_right_eq_some, Option.map_eq_some_iff] at hr
  obtain ⟨hpc, res, hres, rfl⟩ := hr
  cases h with
  | loop hp => simp [hpc, Alpn.Sender.Pc.polls] at hp
  | join _ hp => simp [hp] at hpc
  | clear hp => rcases hp with hp | hp <;> simp [hp] at hpc
  | returned e _ he hf =>
    obtain rfl := Option.some.inj (he.symm.trans hres)
    exact ⟨e.text, rfl, hf⟩

theorem phaseRank_afterLan (e : Text) : phaseRank (afterLan (.error e) : ContactPhase C) < 6 := by
  unfold afterLan
  by_cases hf : desktopLanFinal e <;> simp [hf, phaseRank]

theorem phaseRank_afterQuic (e : Text) :
    phaseRank (afterQuic (.error e) : ContactPhase C) < 5 := by
  unfold afterQuic
  by_cases hf : desktopQuicFinal e <;> simp [hf, phaseRank]

/-- From there on every step keeps to it, none of them begins an attempt or puts an entry
into a map, and those of the function lead to its end. -/
theorem Settled.step {O : Opening C (Lan.Sender.State C)} {disk : Disk} {endpoint : Bool}
    {n m : Contact C} {a : Act C} (h : Settled endpoint n)
    (hs : Contact.step O disk endpoint n a = some m) :
    Settled endpoint m ∧ a.forbidden = false ∧ (a.own → phaseRank m.phase < phaseRank n.phase) := by
  cases a with
  | command k =>
    obtain ⟨c, hc, rfl⟩ := Option.map_eq_some_iff.mp hs
    exact ⟨h.mono fun _ hi => Control.cancelled_command hi hc, rfl, by simp [Act.own]⟩
  | proceed =>
    simp only [Contact.step] at hs
    split at hs
    · rename_i hp
      simp only [Settled, hp] at h
      exact absurd h (guarded_eq_some.mp hs).1.1
    · cases hs
  | seeCancel =>
    simp only [Contact.step] at hs
    split at hs
    · rename_i hp
      obtain ⟨-, rfl⟩ := guarded_eq_some.mp hs
      exact ⟨⟨_, rfl⟩, rfl, fun _ => by simp [phaseRank, hp]⟩
    · rename_i hp
      obtain ⟨-, rfl⟩ := guarded_eq_some.mp hs
      exact ⟨⟨_, rfl⟩, rfl, fun _ => by simp [phaseRank, hp]⟩
    · cases hs
  | lan a =>
    simp only [Contact.step] at hs
    split at hs
    · rename_i handle p hp
      simp only [Option.ite_none_right_eq_some, Option.map_eq_some_iff] at hs
      obtain ⟨hadm, q, hq, rfl⟩ := hs
      cases p with
      | failed e => cases a <;> cases hq
      | running t =>
        cases handle with
        | none => simp only [Settled, hp] at h
        | some handle =>
          simp only [Settled, hp] at h
          cases a with
          | body a =>
            obtain ⟨u, hu, rfl⟩ := Option.map_eq_some_iff.mp hq
            obtain ⟨hend, hlow⟩ := h.step hadm hu
            refine ⟨hend, rfl, fun ha => ?_⟩
            simpa [phaseRank, hp] using hlow (by simpa [Act.own] using ha)
          | _ => cases hq
      | _ => cases handle <;> simp only [Settled, hp] at h
    · cases hs
  | lanReturned =>
    simp only [Contact.step] at hs
    split at hs
    · rename_i handle p hp
      obtain ⟨r, hr, rfl⟩ := Option.map_eq_some_iff.mp hs
      cases p with
      | failed e =>
        simp only [Settled, hp] at h
        obtain rfl := Option.some.inj hr
        refine ⟨settled_afterLan h, rfl, fun _ => ?_⟩
        simpa [phaseRank, hp] using phaseRank_afterLan e.text
      | running t =>
        cases handle with
        | none => simp only [Settled, hp] at h
        | some handle =>
          simp only [Settled, hp] at h
          obtain ⟨e, rfl, hf⟩ := h.lanReturns hr
          refine ⟨settled_afterLan hf, rfl, fun _ => ?_⟩
          have hpc := (Option.ite_none_right_eq_some.mp hr).1
          simpa [phaseRank, hp, hpc, lanRank] using phaseRank_afterLan e
      | _ => cases hr
    · cases hs
  | tryQuic =>
    simp only [Contact.step] at hs
    split at hs
    · rename_i hp
      simp only [Settled, hp] at h
      obtain ⟨g, -⟩ := guarded_eq_some.mp hs
      simp [h.1] at g
    · cases hs
  | skipQuic =>
    simp only [Contact.step] at hs
    split at hs
    · rename_i hp
      obtain rfl := Option.some.inj hs
      simp only [Settled, hp] at h
      exact ⟨h.2, rfl, fun _ => by simp [phaseRank, hp]⟩
    · cases hs
  | quic a =>
    simp only [Contact.step] at hs
    split at hs
    · rename_i s hp
      simp only [Settled, hp] at h
      cases a with
      | command k => cases hs
      | _ =>
        obtain ⟨t, ht, rfl⟩ := Option.map_eq_some_iff.mp hs
        obtain ⟨hstop, hflags, hact, hreg, hlow⟩ := h.step (by simp) ht
        refine ⟨hstop.mono (fun _ hi => hi) fun hseen => ?_, ?_, fun ha => ?_⟩
        · simpa [Seen, Control.cancelled, Control.flag, hflags] using hseen
        · first
            | rfl
            | exact absurd rfl hact
            | exact absurd rfl hreg
        · simpa [phaseRank, hp] using hlow (by simpa [Act.own] using ha)
    · cases hs
  | quicReturned =>
    simp only [Contact.step] at hs
    split at hs
    · rename_i s hp
      obtain ⟨r, hr, rfl⟩ := Option.map_eq_some_iff.mp hs
      simp only [Settled, hp] at h
      obtain ⟨e, rfl, hf⟩ := h.returns hr
      refine ⟨settled_afterQuic hf, rfl, fun _ => ?_⟩
      have hpc := (Option.ite_none_right_eq_some.mp hr).1
      simpa [phaseRank, hp, hpc, quicRank] using phaseRank_afterQuic e
    · cases hs
  | wake =>
    simp only [Contact.step] at hs
    split at hs
    · rename_i hp
      obtain rfl := Option.some.inj hs
      simp only [Settled, hp] at h
      exact ⟨h, rfl, fun _ => by simp [phaseRank, hp]⟩
    · cases hs
  | clearActive =>
    simp only [Contact.step] at hs
    split at hs
    · rename_i r hp
      obtain rfl := Option.some.inj hs
      simp only [Settled, hp] at h
      exact ⟨h, rfl, fun _ => by simp [phaseRank, hp]⟩
    · cases hs
  | clearFlag =>
    simp only [Contact.step] at hs
    split at hs
    · rename_i r hp
      obtain rfl := Option.some.inj hs
      simp only [Settled, hp] at h
      exact ⟨h, rfl, fun _ => by simp [phaseRank, hp]⟩
    · cases hs
  | _ =>
    -- the other steps are taken in phases where nothing is settled
    simp only [Contact.step] at hs
    split at hs
    · rename_i hp
      simp only [Settled, hp] at h
    · cases hs

/-- While the call has not returned, it can go on by itself. -/
theorem Settled.returned_or (O : Opening C (Lan.Sender.State C)) (disk : Disk) {endpoint : Bool}
    {n : Contact C} (h : Settled endpoint n) :
    (∃ e, n.phase = .returned (.error e)) ∨
      ∃ a, a.own ∧ Contact.step O disk endpoint n a ≠ none := by
  obtain ⟨phase, control, own⟩ := n
  cases phase with
  | check =>
    have hseen : control.cancelled (some own) := h
    exact .inr ⟨.seeCancel, rfl, by simp [Contact.step, guarded, hseen]⟩
  | sleep => exact .inr ⟨.wake, rfl, by simp [Contact.step]⟩
  | choose => exact .inr ⟨.skipQuic, rfl, by simp [Contact.step]⟩
  | lan handle p =>
    cases p with
    | failed e => exact .inr ⟨.lanReturned, rfl, by simp [Contact.step, Contact.lanReturns]⟩
    | running t =>
      cases handle with
      | none => cases h
      | some handle =>
        refine .inr ?_
        cases h with
        | loop hp hcan hl =>
          rcases hp with hp | hp | hp
          · exact ⟨.lan (.body .seeCancel), rfl, by
              simp [Contact.step, lanAdmits, polled, Opening.party, Opening.step, Lan.sender,
                Lan.Sender.step, guarded, hp, hcan]⟩
          · exact ⟨.lan (.body .seeCancel), rfl, by
              simp [Contact.step, lanAdmits, polled, Opening.party, Opening.step, Lan.sender,
                Lan.Sender.step, guarded, hp, hcan]⟩
          · exact ⟨.lan (.body (.writeError [])), rfl, by
              simp [Contact.step, lanAdmits, polled, Opening.party, Opening.step, Lan.sender,
                Lan.Sender.step, guarded, hp]⟩
        | join d hp hd =>
          exact ⟨.lan (.body (.joinError d)), rfl, by
            simp [Contact.step, lanAdmits, polled, Opening.party, Opening.step, Lan.sender,
              Lan.Sender.step, guarded, hp, hd]⟩
        | sendError e hp =>
          exact ⟨.lan (.body (.sendError e)), rfl, by
            simp [Contact.step, lanAdmits, polled, Opening.party, Opening.step, Lan.sender,
              Lan.Sender.step, guarded, hp]⟩
        | returned e hp he =>
          exact ⟨.lanReturned, rfl, by simp [Contact.step, Contact.lanReturns, hp, he]⟩
    | _ => cases handle <;> cases h
  | quic s =>
    refine .inr ?_
    cases h with
    | loop hp hcan =>
      exact ⟨.quic .seeCancel, rfl, by
        simp [Contact.step, Alpn.Sender.step, guarded, Alpn.Sender.State.seesCancel, hp, hcan]⟩
    | join d hp hd =>
      exact ⟨.quic (.joinError d), rfl, by
        simp [Contact.step, Alpn.Sender.step, guarded, hp, hd]⟩
    | clear hp =>
      rcases hp with hp | hp
      · exact ⟨.quic .cancelActive, rfl, by simp [Contact.step, Alpn.Sender.step, guarded, hp]⟩
      · exact ⟨.quic .cancelFlag, rfl, by simp [Contact.step, Alpn.Sender.step, guarded, hp]⟩
    | returned e hp he =>
      exact ⟨.quicReturned, rfl, by simp [Contact.step, Alpn.returns, hp, he]⟩
  | clearActive r => exact .inr ⟨.clearActive, rfl, by simp [Contact.step]⟩
  | clearFlag r => exact .inr ⟨.clearFlag, rfl, by simp [Contact.step]⟩
  | returned r =>
    obtain ⟨e, rfl⟩ := h
    exact .inl ⟨e, rfl⟩
  | _ => cases h

/-- Left to itself, the call then returns an error. -/
theorem Settled.endsIn {pauses : Nat} {secret : C.Secret} {metadata : TransferMetadata C}
    {disk : Disk} {endpoint : Bool} {n : Contact C} (h : Settled endpoint n) :
    (contact C pauses secret metadata disk endpoint).EndsIn (fun _ a => a.own)
      (fun n => ∃ e, n.phase = .returned (.error e)) n := by
  refine Machine.endsIn_of_rank (Settled endpoint) (fun n => phaseRank n.phase) ?_ ?_ ?_ h
  · exact fun t a u ht _ hs => (ht.step hs).1
  · exact fun t a u ht hown hs => (ht.step hs).2.2 hown
  · intro t ht hstuck
    rcases ht.returned_or (Lan.directOpening C pauses secret metadata) disk with
      hr | ⟨a, hown, hne⟩
    · exact hr
    · exact absurd (hstuck a hown) hne

/-- Only the last step of `cancel_transfer` completes it. -/
theorem cancel_step {O : Opening C (Lan.Sender.State C)} {disk : Disk} {endpoint : Bool}
    {n m : Contact C} {a : Act C} (hs : Contact.step O disk endpoint n a = some m)
    (hm : m.control.cancel = .done) :
    n.control.cancel = .done ∨ a = .command .cancelUnregister := by
  cases a with
  | command k =>
    obtain ⟨c, hc, rfl⟩ := Option.map_eq_some_iff.mp hs
    cases k with
    | cancelUnregister => exact .inr rfl
    | pause =>
      obtain rfl := Option.some.inj hc
      exact .inl ((n.control.cancel_signal _).symm.trans hm)
    | resume =>
      obtain rfl := Option.some.inj hc
      exact .inl ((n.control.cancel_signal _).symm.trans hm)
    | cancelSignal =>
      obtain ⟨-, rfl⟩ := guarded_eq_some.mp hc
      cases hm
    | cancelDeactivate =>
      obtain ⟨-, rfl⟩ := guarded_eq_some.mp hc
      cases hm
  | quic a =>
    simp only [Contact.step] at hs
    split at hs
    · cases a with
      | command k => cases hs
      | fail e =>
        obtain ⟨t, ht, rfl⟩ := Option.map_eq_some_iff.mp hs
        obtain ⟨-, rfl⟩ := guarded_eq_some.mp ht
        refine .inl (Eq.trans ?_ hm)
        show n.control.cancel = (if _ then n.control.deactivate else n.control).cancel
        split <;> rfl
      | _ =>
        obtain ⟨t, ht, rfl⟩ := Option.map_eq_some_iff.mp hs
        obtain ⟨-, rfl⟩ := guarded_eq_some.mp ht
        exact .inl hm
    · cases hs
  | lan a =>
    simp only [Contact.step] at hs
    split at hs
    · simp only [Option.ite_none_right_eq_some, Option.map_eq_some_iff] at hs
      obtain ⟨-, q, -, rfl⟩ := hs
      exact .inl hm
    · cases hs
  | lanReturned =>
    simp only [Contact.step] at hs
    split at hs
    · obtain ⟨r, -, rfl⟩ := Option.map_eq_some_iff.mp hs
      exact .inl hm
    · cases hs
  | quicReturned =>
    simp only [Contact.step] at hs
    split at hs
    · obtain ⟨r, -, rfl⟩ := Option.map_eq_some_iff.mp hs
      exact .inl hm
    · cases hs
  | seeCancel =>
    simp only [Contact.step] at hs
    split at hs
    · obtain ⟨-, rfl⟩ := guarded_eq_some.mp hs
      exact .inl hm
    · obtain ⟨-, rfl⟩ := guarded_eq_some.mp hs
      exact .inl hm
    · cases hs
  | proceed =>
    simp only [Contact.step] at hs
    split at hs
    · obtain ⟨-, rfl⟩ := guarded_eq_some.mp hs
      exact .inl hm
    · cases hs
  | tryQuic =>
    simp only [Contact.step] at hs
    split at hs
    · obtain ⟨-, rfl⟩ := guarded_eq_some.mp hs
      exact .inl hm
    · cases hs
  | _ =>
    simp only [Contact.step] at hs
    split at hs
    · obtain rfl := Option.some.inj hs
      exact .inl hm
    · cases hs

end Contact

/-- A cancelled send stays cancelled where the last step of `cancel_transfer` finds the
call settled: no attempt begins and no entry is put into a map after it, what is returned
is an error, and the call, left to itself, returns. -/
theorem cancelled_send_stays (C : Primitives) (pauses : Nat) (secret : C.Secret)
    (metadata : TransferMetadata C) (disk : Disk) (endpoint : Bool) (c : Control)
    (hidle : c.cancel = .idle) {n : Contact C}
    (h : (contact C pauses secret metadata disk endpoint).Reach
      (fun n a => a = .command .cancelUnregister → Contact.Settled endpoint n) { control := c } n)
    (hdone : n.control.cancel = .done) :
    (∀ a m, (contact C pauses secret metadata disk endpoint).step n a = some m →
      a.forbidden = false) ∧
    (∀ r, n.phase = .returned r → ∃ e, r = .error e) ∧
    (contact C pauses secret metadata disk endpoint).EndsIn (fun _ a => a.own)
      (fun n => ∃ e, n.phase = .returned (.error e)) n := by
  have hset : n.control.cancel = .done → Contact.Settled endpoint n := by
    refine h.invariant (I := fun n => n.control.cancel = .done → Contact.Settled endpoint n) ?_ ?_
    · intro hd
      simp [hidle] at hd
    · intro t a u ih hok hs hd
      rcases Contact.cancel_step hs hd with ht | ha
      · exact (Contact.Settled.step (ih ht) hs).1
      · exact (Contact.Settled.step (hok ha) hs).1
  have hn := hset hdone
  refine ⟨fun a m hs => (Contact.Settled.step hn hs).2.1, fun r hr => ?_, hn.endsIn⟩
  simpa only [Contact.Settled, hr] using hn

namespace Contact

/-- A call that is being cancelled while it waits. -/
def waiting : Contact .plain where
  phase := .check
  control := { flags := [{ cancelled := true }], registered := some 0, cancel := .deactivated }

/-- A call that is cancelled in the loop of its LAN attempt. -/
def cancelledSending : List (Act .plain) :=
  ([.registerFlag, .registerActive, .proceed, .tryLan, .connected] : List (Act .plain)) ++
  ([.hello, .serverHello ⟨tagServerHello, .key ()⟩, .metadata,
    .reply (Frame.ofText tagMetadata (acceptText 0))] :
      List (OpenAct .plain (Lan.Sender.Act .plain))).map .lan ++
  ([.getFlag, .command .cancelSignal, .command .cancelDeactivate, .command .cancelUnregister] :
    List (Act .plain))

/-- The attempt ends, and the next one puts its entries into the maps. -/
def goesOn : List (Act .plain) :=
  ([.lan (.body .seeCancel), .lan (.body (.sendError .cancelled)), .lanReturned, .tryQuic] :
    List (Act .plain)) ++
  ([.connect, .activate, .register] : List Alpn.Sender.Act).map .quic

/-- The receiver accepts that attempt, and the call succeeds. -/
def succeeds : List (Act .plain) :=
  ([.writeRequest, .accepted 0, .getFlag, .proceed, .seek, .endOfFile, .endOfData, .finish,
    .join, .clearFlag, .clearActive] : List Alpn.Sender.Act).map .quic ++
  ([.quicReturned, .clearActive, .clearFlag] : List (Act .plain))

/-- The calls for an empty file. -/
def sampleCall : Machine (Contact .plain) (Act .plain) :=
  contact .plain 0 Primitives.plainSecret sampleMetadata (Disk.ofFile []) true

/-- A call that is cancelled before its first attempt returns an error. -/
theorem waiting_send_stays :
    ∃ n, sampleCall.step waiting (.command .cancelUnregister) = some n ∧
      sampleCall.EndsIn (fun _ a => a.own) (fun n => ∃ e, n.phase = .returned (.error e)) n := by
  have hrun : sampleCall.run { control := {} } [.registerFlag, .registerActive,
      .command .cancelSignal, .command .cancelDeactivate] = some waiting := rfl
  refine ⟨_, rfl, (cancelled_send_stays .plain 0 Primitives.plainSecret sampleMetadata
    (Disk.ofFile []) true {} rfl (.tail (a := .command .cancelUnregister)
      (Machine.reach_of_run ?_ hrun) (fun _ => rfl) rfl) rfl).2.2⟩
  intro t a ha hc
  simp [hc] at ha

/-- A cancellation that completes in the loop of a LAN attempt is followed by an attempt
over QUIC, with new entries in the maps, and the file is sent. -/
theorem cancelled_send_goes_on :
    ∃ n, sampleCall.run { control := {} } cancelledSending = some n ∧ n.control.cancel = .done ∧
      n.control.registered = none ∧ n.control.active = false ∧
      (∃ m, sampleCall.run n goesOn = some m ∧ m.control.registered.isSome ∧ m.control.active) ∧
      ∃ m hash, sampleCall.run n (goesOn ++ succeeds) = some m ∧
        m.phase = .returned (.ok hash) := by
  obtain ⟨n, hn, he⟩ := Option.map_eq_some_iff.mp
    (show (sampleCall.run { control := {} } cancelledSending).map
      (fun n => (n.control, (sampleCall.run n goesOn).map fun m => m.control,
        (sampleCall.run n (goesOn ++ succeeds)).map fun m => m.phase.hash)) =
      some ({ flags := [{ cancelled := true }], cancel := .done },
        some { flags := [{ cancelled := true }, {}], registered := some 1, active := true,
               cancel := .done },
        some (some [])) from rfl)
  obtain ⟨hc, hrest⟩ := Prod.mk.inj he
  obtain ⟨hm, hr⟩ := Prod.mk.inj hrest
  obtain ⟨m, hm, hmc⟩ := Option.map_eq_some_iff.mp hm
  obtain ⟨u, hu, hp⟩ := Option.map_eq_some_iff.mp hr
  refine ⟨n, hn, by rw [hc], by rw [hc], by rw [hc], ⟨m, hm, by rw [hmc]; rfl, by rw [hmc]⟩, u, [],
    hu, ContactPhase.hash_eq_some.mp hp⟩

end Contact

end P2PTransfer
