import P2PTransfer.Lan.Sender
import P2PTransfer.Network.Message
import P2PTransfer.Network.PauseFlag

/-!
# Pausing the LAN sender

The loop of `send_file_direct_tcp` one await at a time: the reads and polls of
`wait_if_paused`, those of `wait_for_cancel` in the select, and the writes of
`send_message`, which may put any number of bytes on the stream. Between any two of them the
flag may be paused, resumed and cancelled. Only the waits look at the flag, so that a frame
that has been started is written to its end.

## Main definitions

- `Frame.bytes` — a frame as the payload of a message
- `Loop.State`, `Loop.step` — the loop over the steps of the sender

## Main results

- `Loop.refines` — the loop takes steps of the sender
- `Loop.paused_send_stops` — a paused loop starts at most one chunk, and cuts no frame
-/

namespace P2PTransfer

open Transition

variable {C : Primitives}

/-- A frame in bytes. What follows the tag of a frame that is no chunk is made by a library. -/
def Frame.bytes (encode : Payload C → Bytes) (f : Frame C) : Bytes :=
  f.tag :: match f.payload with
    | .chunk index compressed data =>
      Framing.octets 4 index ++ [if compressed then 1 else 0] ++ data
    | p => encode p

namespace Lan

/-- The frame that the function is sending. -/
def Sender.State.sending (s : Sender.State C) : Option (Frame C) :=
  match s.pc with
  | .write => s.wire.map Prod.fst
  | .sendError e => some (Frame.ofText tagError e.text)
  | .sendComplete => some ⟨tagComplete, .hex (C.blake3 s.hashed)⟩
  | _ => none

namespace Loop

/-- The sender with the flag, the wait in which it is, and the stream. Of the message that is
being sent `written` bytes are on the stream. -/
structure State (C : Primitives) where
  core : Sender.State C
  flag : Flag.PauseFlag := {}
  ifPaused : Flag.WaitIfPaused := {}
  forCancel : Flag.WaitForCancel := {}
  written : Nat := 0
  stream : Bytes := []

/-- The loop after a reply with this offset, with the flag as it has been registered. -/
def State.start (key : C.Key) (metadata : TransferMetadata C) (startOffset : Nat) : State C where
  core := Sender.State.start 0 key metadata startOffset

inductive Act (C : Primitives) where
  | pause
  | resume
  | cancel
  | poll
  | start (f : Frame C) (n : Nat)
  | more (n : Nat)
  | loop (a : Sender.Act C)

variable (encode : Payload C → Bytes)

/-- Whether the waits and the writes let the sender take a step. The receive of the select is
polled after `wait_for_cancel` has returned `Pending`. -/
def State.lets (s : State C) : Sender.Act C → Bool
  | .proceed => s.ifPaused.pc = .returned false
  | .seeCancel =>
    if s.core.pc = .check then s.ifPaused.pc = .returned true else s.forCancel.pc = .returned
  | .dequeue _ | .endOfData => s.forCancel.pc = .parked
  | .write _ | .sendError _ | .sendComplete =>
    s.core.sending.any fun f => s.written = (sendMessage (f.bytes encode)).length
  -- the flag is another one, and the network does not fail
  | .pause | .resume | .cancel | .writeError _ | .completeError _ => false
  | _ => true

/-- The sender as it takes the step: it learns of a cancel from the waits. -/
def State.told (s : State C) : Sender.Act C → Sender.State C
  | .seeCancel => { s.core with cancelled := true }
  | _ => s.core

def step (disk : Disk) (s : State C) : Act C → Option (State C)
  | .pause => some { s with flag := s.flag.pause }
  | .resume => some { s with flag := s.flag.resume }
  | .cancel => some { s with flag := s.flag.cancel }
  | .poll => match s.core.pc with
    | .check => (s.ifPaused.next s.flag).map fun w => { s with ifPaused := w }
    | .dequeue => (s.forCancel.next s.flag).map fun w => { s with forCancel := w }
    | _ => none
  | .start f n => guarded (s.core.sending = some f ∧ s.written = 0 ∧ 0 < n ∧
        n ≤ (sendMessage (f.bytes encode)).length)
      { s with written := n, stream := s.stream ++ (sendMessage (f.bytes encode)).take n }
  | .more n => match s.core.sending with
    | some f => guarded (0 < s.written ∧ 0 < n ∧
          s.written + n ≤ (sendMessage (f.bytes encode)).length)
        { s with written := s.written + n,
                 stream := s.stream ++ ((sendMessage (f.bytes encode)).drop s.written).take n }
    | none => none
  | .loop a => if s.lets encode a then (Sender.step disk (s.told a) a).map fun core =>
        -- where the loop goes on, it waits and writes anew
        if core.pc = s.core.pc then { s with core := core }
        else { flag := s.flag, stream := s.stream, core := core }
      else none

def machine (disk : Disk) : Machine (State C) (Act C) := ⟨step encode disk⟩

/-- The frame that an action starts. -/
def Act.starts : Act C → List (Frame C)
  | .start f _ => [f]
  | _ => []

/-- The frames that have been started. -/
def started (as : List (Act C)) : List (Frame C) := as.flatMap Act.starts

/-- What is on the stream of the frame that is being sent. -/
def State.part (s : State C) : Bytes :=
  match s.core.sending with
  | some f => (sendMessage (f.bytes encode)).take s.written
  | none => []

/-- What is missing of it once it has been started. -/
def State.unwritten (s : State C) : Bytes :=
  match s.core.sending with
  | some f => if s.written = 0 then [] else (sendMessage (f.bytes encode)).drop s.written
  | none => []

variable {encode} {disk : Disk} {core₀ : Sender.State C} {s t : State C} {a : Act C}
  {frames : List (Frame C)}

/-- A step of the sender leaves the frame that it is sending, or moves on after it. -/
theorem sends_of_step {core core' : Sender.State C} {a : Sender.Act C}
    (hjoined : core.pc = .sendComplete → core.reader = .done)
    (hs : Sender.step disk core a = some core') (hlets : s.lets encode a) :
    (core'.pc = core.pc ∧ core'.sending = core.sending ∧ (sender C disk).sends core a = []) ∨
      (core'.pc ≠ core.pc ∧ (sender C disk).sends core a = core.sending.toList) := by
  cases a with
  | pause | resume | cancel | writeError | completeError => cases hlets
  | hashPrefix | read =>
    obtain ⟨⟨hr, -⟩, rfl⟩ := guarded_eq_some.mp hs
    refine .inl ⟨rfl, ?_, rfl⟩
    unfold Sender.State.sending
    cases hp : core.pc with
    | sendComplete =>
      -- the digest is taken from a reader that has ended
      rw [hjoined hp] at hr
      cases hr
    | _ => rfl
  | seek | endOfFile | push | pushFailed | readError =>
    obtain ⟨-, rfl⟩ := guarded_eq_some.mp hs
    exact .inl ⟨rfl, rfl, rfl⟩
  | seeCancel =>
    obtain ⟨⟨hp, -⟩, rfl⟩ := guarded_eq_some.mp hs
    rcases hp with hp | hp
    · exact .inr ⟨by rw [hp]; simp, by simp [Sender.State.sending, hp, sender]⟩
    · exact .inr ⟨by rw [hp]; simp, by simp [Sender.State.sending, hp, sender]⟩
  | write item =>
    obtain ⟨⟨hp, hw⟩, rfl⟩ := guarded_eq_some.mp hs
    exact .inr ⟨by rw [hp]; simp, by simp [Sender.State.sending, hp, hw, sender]⟩
  | sendError e =>
    obtain ⟨hp, rfl⟩ := guarded_eq_some.mp hs
    exact .inr ⟨by rw [hp]; simp, by simp [Sender.State.sending, hp, sender]⟩
  | sendComplete | reply | hangup =>
    obtain ⟨hp, rfl⟩ := guarded_eq_some.mp hs
    exact .inr ⟨by rw [hp]; simp, by simp [Sender.State.sending, hp, sender]⟩
  | _ =>
    obtain ⟨⟨hp, -⟩, rfl⟩ := guarded_eq_some.mp hs
    exact .inr ⟨by rw [hp]; simp, by simp [Sender.State.sending, hp, sender]⟩

theorem joined_step {core core' : Sender.State C} {a : Sender.Act C}
    (hjoined : core.pc = .sendComplete → core.reader = .done)
    (hs : Sender.step disk core a = some core') (hlets : s.lets encode a) :
    core'.pc = .sendComplete → core'.reader = .done := by
  intro hp
  cases a with
  | pause | resume | cancel | writeError | completeError => cases hlets
  | join =>
    obtain ⟨⟨-, hr⟩, rfl⟩ := guarded_eq_some.mp hs
    exact hr
  | hashPrefix | seek | read | endOfFile | push | readError =>
    obtain ⟨hguard, rfl⟩ := guarded_eq_some.mp hs
    have hdone := hjoined hp
    simp [hdone] at hguard
  | pushFailed =>
    obtain ⟨⟨-, hret⟩, rfl⟩ := guarded_eq_some.mp hs
    exact absurd (hp.symm.trans hret) (by simp)
  | _ =>
    obtain ⟨-, rfl⟩ := guarded_eq_some.mp hs
    cases hp

/-- A frame is sent when it is on the stream whole. -/
theorem written_of_lets {core : Sender.State C} {a : Sender.Act C} {f : Frame C}
    (hlets : s.lets encode a) (hsends : (sender C disk).sends core a ≠ [])
    (hf : s.core.sending = some f) : s.written = (sendMessage (f.bytes encode)).length := by
  cases a with
  | write | sendError | sendComplete =>
    simp only [State.lets, hf, Option.any_some, decide_eq_true_eq] at hlets
    exact hlets
  | _ => exact absurd rfl hsends

theorem length_sendMessage_pos (data : Bytes) : 0 < (sendMessage data).length := by
  rw [sendMessage, Framing.length_enframe]
  omega

theorem part_of_written (h : s.written = 0) : s.part encode = [] := by
  unfold State.part
  split
  · rw [h, List.take_zero]
  · rfl

/-- Where a frame that has been started is on the stream: those before it are there whole. -/
structure Framed (encode : Payload C → Bytes) (disk : Disk) (core₀ : Sender.State C)
    (frames : List (Frame C)) (s : State C) : Prop where
  joined : s.core.pc = .sendComplete → s.core.reader = .done
  bound : ∀ f, s.core.sending = some f → s.written ≤ (sendMessage (f.bytes encode)).length
  idle : s.core.sending = none → s.written = 0
  history : ∃ i whole, (sender C disk).Trace (fun _ _ => True) core₀ i whole s.core ∧
    frames = whole ++ (if s.written = 0 then [] else s.core.sending.toList) ∧
    s.stream = (whole.map fun f => sendMessage (f.bytes encode)).flatten ++ s.part encode

theorem Framed.start (encode : Payload C → Bytes) (disk : Disk) (key : C.Key)
    (metadata : TransferMetadata C) (startOffset : Nat) :
    Framed encode disk (State.start key metadata startOffset).core []
      (State.start key metadata startOffset) where
  joined := nofun
  bound f h := by cases h
  idle _ := rfl
  history := ⟨[], [], .nil, rfl, rfl⟩

/-- The sender takes the step in its own history. -/
theorem Framed.loop {a : Sender.Act C} (h : Framed encode disk core₀ frames s)
    (hs : step encode disk s (.loop a) = some t) : Framed encode disk core₀ frames t := by
  obtain ⟨hjoined, hbound, hidle, i, whole, htrace, hframes, hstream⟩ := h
  simp only [step] at hs
  split at hs
  case isFalse => cases hs
  case isTrue hlets =>
    obtain ⟨core, hcore, rfl⟩ := Option.map_eq_some_iff.mp hs
    -- a sender that is told of a cancel is about to see it
    have htold : ∃ i, (sender C disk).Trace (fun _ _ => True) core₀ i whole (s.told a) ∧
        (s.told a).pc = s.core.pc ∧ (s.told a).sending = s.core.sending ∧
        (s.told a).reader = s.core.reader := by
      cases a with
      | seeCancel =>
        have hcancel := htrace.snoc (a := .cancel) trivial rfl
        rw [show (sender C disk).sends s.core .cancel = [] from rfl, List.append_nil] at hcancel
        exact ⟨_, hcancel, rfl, rfl, rfl⟩
      | _ => exact ⟨_, htrace, rfl, rfl, rfl⟩
    obtain ⟨i', htrace', hpc, hsending, hreader⟩ := htold
    have hjoined' : (s.told a).pc = .sendComplete → (s.told a).reader = .done := by
      rw [hpc, hreader]
      exact hjoined
    have hnext := htrace'.snoc trivial hcore
    have hj := joined_step hjoined' hcore hlets
    rcases sends_of_step hjoined' hcore hlets with ⟨hsame, hsend, hnone⟩ | ⟨hmove, hall⟩
    · rw [hnone, List.append_nil] at hnext
      rw [if_pos (hsame.trans hpc)]
      rw [hsending] at hsend
      refine ⟨hj, fun f hf => hbound f (hsend ▸ hf), fun hf => hidle (hsend ▸ hf), _, whole, hnext,
        ?_, ?_⟩
      · dsimp only
        rw [hsend, hframes]
      · simp only [State.part, hsend]
        exact hstream
    · rw [hpc] at hmove
      rw [hsending] at hall
      rw [if_neg hmove]
      have hwhole : frames = whole ++ s.core.sending.toList ∧ s.part encode =
          (s.core.sending.toList.map fun f => sendMessage (f.bytes encode)).flatten := by
        cases hf : s.core.sending with
        | none =>
          rw [hframes, hidle hf, part_of_written (hidle hf)]
          exact ⟨rfl, rfl⟩
        | some f =>
          have hwritten := written_of_lets hlets (by rw [hall, hf]; simp) hf
          have hpos := length_sendMessage_pos (f.bytes encode)
          rw [hframes, if_neg (by omega), hf]
          refine ⟨rfl, ?_⟩
          simp only [State.part, hf, hwritten, List.take_length, Option.toList_some, List.map_cons,
            List.map_nil, List.flatten_singleton]
      refine ⟨hj, fun f _ => Nat.zero_le _, fun _ => rfl, _, _, hnext, ?_, ?_⟩
      · rw [hall, if_pos rfl, List.append_nil]
        exact hwhole.1
      · rw [hall, List.map_append, List.flatten_append, ← hwhole.2]
        have hnone : (⟨core, s.flag, {}, {}, 0, s.stream⟩ : State C).part encode = [] :=
          part_of_written rfl
        rw [hnone, List.append_nil]
        exact hstream

/-- **One step of the loop.** -/
theorem Framed.step (h : Framed encode disk core₀ frames s)
    (hs : Loop.step encode disk s a = some t) :
    Framed encode disk core₀ (frames ++ a.starts) t := by
  cases a with
  | loop a =>
    simp only [Act.starts, List.append_nil]
    exact h.loop hs
  | pause | resume | cancel =>
    obtain rfl := Option.some.inj hs
    simp only [Act.starts, List.append_nil]
    exact ⟨h.joined, h.bound, h.idle, h.history⟩
  | poll =>
    simp only [Act.starts, List.append_nil]
    simp only [Loop.step] at hs
    split at hs
    · obtain ⟨w, -, rfl⟩ := Option.map_eq_some_iff.mp hs
      exact ⟨h.joined, h.bound, h.idle, h.history⟩
    · obtain ⟨w, -, rfl⟩ := Option.map_eq_some_iff.mp hs
      exact ⟨h.joined, h.bound, h.idle, h.history⟩
    · cases hs
  | start f n =>
    obtain ⟨⟨hf, hzero, hpos, hle⟩, rfl⟩ := guarded_eq_some.mp hs
    obtain ⟨i, whole, htrace, hframes, hstream⟩ := h.history
    rw [if_pos hzero, List.append_nil] at hframes
    rw [part_of_written hzero, List.append_nil] at hstream
    refine ⟨h.joined, fun g hg => ?_, fun hnone => ?_, i, whole, htrace, ?_, ?_⟩
    · obtain rfl := Option.some.inj (hf.symm.trans hg)
      exact hle
    · exact absurd (hf.symm.trans hnone) (by simp)
    · rw [hframes, if_neg (Nat.pos_iff_ne_zero.mp hpos), hf]
      rfl
    · simp only [State.part, hf, hstream]
  | more n =>
    simp only [Act.starts, List.append_nil]
    simp only [Loop.step] at hs
    split at hs
    · next f hf =>
      obtain ⟨⟨hstarted, hpos, hle⟩, rfl⟩ := guarded_eq_some.mp hs
      obtain ⟨i, whole, htrace, hframes, hstream⟩ := h.history
      rw [if_neg (by omega)] at hframes
      refine ⟨h.joined, fun g hg => ?_, fun hnone => ?_, i, whole, htrace, ?_, ?_⟩
      · obtain rfl := Option.some.inj (hf.symm.trans hg)
        exact hle
      · exact absurd (hf.symm.trans hnone) (by simp)
      · rw [if_neg (by show s.written + n ≠ 0; omega)]
        exact hframes
      · simp only [State.part, hf] at hstream ⊢
        rw [hstream, List.append_assoc, List.take_add]
    · cases hs

/-- **Refinement.** Whatever is done to the flag, the loop takes steps of the sender, and the
frames that it has started are on the stream, all but the last of them whole. -/
theorem refines {as : List (Act C)} (h : Framed encode disk core₀ frames s)
    (hrun : (machine encode disk).run s as = some t) :
    Framed encode disk core₀ (frames ++ started as) t := by
  induction as generalizing s frames with
  | nil =>
    obtain rfl := Option.some.inj hrun
    rw [started, List.flatMap_nil, List.append_nil]
    exact h
  | cons a as ih =>
    obtain ⟨u, hu, hrest⟩ := Option.bind_eq_some_iff.mp hrun
    rw [started, List.flatMap_cons, ← List.append_assoc]
    exact ih (h.step hu) hrest

/-- How many chunks a paused loop may still start. -/
def State.budget (s : State C) : Nat :=
  match s.core.pc with
  | .check => if s.ifPaused.pc = .returned false then 1 else 0
  | .dequeue => 1
  | .write => if s.written = 0 then 1 else 0
  | _ => 0

theorem State.budget_le (s : State C) : s.budget ≤ 1 := by
  unfold State.budget
  split <;> (try split) <;> omega

/-- Only the end of `wait_if_paused` leads to the select, and only a dequeued chunk is
written. -/
theorem pc_of_step {core core' : Sender.State C} {a : Sender.Act C}
    (hs : Sender.step disk core a = some core') (hproceed : a ≠ .proceed)
    (hdequeue : ∀ item, a ≠ .dequeue item) :
    core'.pc = core.pc ∨ core'.pc ≠ .dequeue ∧ core'.pc ≠ .write := by
  cases a with
  | proceed => exact absurd rfl hproceed
  | dequeue item => exact absurd rfl (hdequeue item)
  | hashPrefix | seek | read | endOfFile | push | pushFailed | readError | pause | resume =>
    obtain ⟨-, rfl⟩ := guarded_eq_some.mp hs
    exact .inl rfl
  | cancel =>
    obtain rfl := Option.some.inj hs
    exact .inl rfl
  | _ =>
    obtain ⟨-, rfl⟩ := guarded_eq_some.mp hs
    exact .inr ⟨by simp, by simp⟩

theorem budget_loop {a : Sender.Act C} (hs : step encode disk s (.loop a) = some t) :
    t.budget ≤ s.budget ∧ t.flag = s.flag := by
  simp only [step] at hs
  split at hs
  case isFalse => cases hs
  case isTrue hlets =>
    obtain ⟨core, hcore, rfl⟩ := Option.map_eq_some_iff.mp hs
    have hpc : (s.told a).pc = s.core.pc := by
      cases a <;> rfl
    by_cases hsame : core.pc = s.core.pc
    · rw [if_pos hsame]
      refine ⟨?_, rfl⟩
      simp only [State.budget, hsame]
      exact Nat.le_refl _
    · rw [if_neg hsame]
      refine ⟨?_, rfl⟩
      cases a with
      | proceed =>
        obtain ⟨⟨hp, -⟩, rfl⟩ := guarded_eq_some.mp hcore
        have hp : s.core.pc = .check := hp
        have hreturned : s.ifPaused.pc = .returned false := of_decide_eq_true hlets
        simp only [State.budget, hp, hreturned]
        exact Nat.le_refl _
      | dequeue item =>
        obtain ⟨⟨hp, -⟩, rfl⟩ := guarded_eq_some.mp hcore
        have hp : s.core.pc = .dequeue := hp
        simp only [State.budget, hp]
        exact Nat.le_refl _
      | _ =>
        obtain hkept | ⟨hd, hw⟩ := pc_of_step hcore (by simp) (by simp)
        · exact absurd (hkept.trans hpc) hsame
        · have hzero : State.budget ⟨core, s.flag, {}, {}, 0, s.stream⟩ = 0 := by
            unfold State.budget
            split
            · rfl
            · next hp => exact absurd hp hd
            · next hp => exact absurd hp hw
            · rfl
          exact hzero.le.trans (Nat.zero_le _)

/-- **One step of a paused loop.** -/
theorem budget_step (hs : step encode disk s a = some t) (hresume : a ≠ .resume)
    (hpaused : s.flag.pauseTx.value = true) :
    t.budget + (a.starts.filter fun f => f.tag = tagChunk).length ≤ s.budget ∧
      t.flag.pauseTx.value = true := by
  cases a with
  | resume => exact absurd rfl hresume
  | pause =>
    obtain rfl := Option.some.inj hs
    exact ⟨Nat.le_refl _, rfl⟩
  | cancel =>
    obtain rfl := Option.some.inj hs
    exact ⟨Nat.le_refl _, hpaused⟩
  | loop a =>
    obtain ⟨hle, hflag⟩ := budget_loop hs
    exact ⟨hle, hflag ▸ hpaused⟩
  | poll =>
    simp only [step] at hs
    split at hs
    · next hp =>
      obtain ⟨w, hw, rfl⟩ := Option.map_eq_some_iff.mp hs
      refine ⟨?_, hpaused⟩
      have hne := Flag.WaitIfPaused.next_ne_returned hpaused hw
      simp only [State.budget, hp, if_neg hne]
      exact Nat.zero_le _
    · next hp =>
      obtain ⟨w, -, rfl⟩ := Option.map_eq_some_iff.mp hs
      refine ⟨?_, hpaused⟩
      simp only [State.budget, hp]
      exact Nat.le_refl _
    · cases hs
  | start f n =>
    obtain ⟨⟨hf, hzero, hpos, -⟩, rfl⟩ := guarded_eq_some.mp hs
    refine ⟨?_, hpaused⟩
    cases hp : s.core.pc with
    | write =>
      simp only [State.budget, hp, hzero, if_true, if_neg (Nat.pos_iff_ne_zero.mp hpos), Nat.zero_add]
      exact List.length_filter_le _ _
    | sendError e =>
      simp only [Sender.State.sending, hp, Option.some.injEq] at hf
      subst hf
      simp [State.budget, hp, Act.starts, Frame.ofText, tagError, tagChunk]
    | sendComplete =>
      simp only [Sender.State.sending, hp, Option.some.injEq] at hf
      subst hf
      simp [State.budget, hp, Act.starts, tagComplete, tagChunk]
    | _ => simp [Sender.State.sending, hp] at hf
  | more n =>
    simp only [step] at hs
    split at hs
    · obtain ⟨⟨hstarted, -, -⟩, rfl⟩ := guarded_eq_some.mp hs
      refine ⟨?_, hpaused⟩
      simp only [State.budget, Act.starts, List.filter_nil, List.length_nil, Nat.add_zero]
      split
      · exact Nat.le_refl _
      · exact Nat.le_refl _
      · rw [if_neg (by omega)]
        exact Nat.zero_le _
      · exact Nat.le_refl _
    · cases hs

theorem budget_run {as : List (Act C)} (hrun : (machine encode disk).run s as = some t)
    (hresume : .resume ∉ as) (hpaused : s.flag.pauseTx.value = true) :
    t.budget + ((started as).filter fun f => f.tag = tagChunk).length ≤ s.budget := by
  induction as generalizing s with
  | nil =>
    obtain rfl := Option.some.inj hrun
    exact Nat.le_refl _
  | cons a as ih =>
    obtain ⟨u, hu, hrest⟩ := Option.bind_eq_some_iff.mp hrun
    obtain ⟨hstep, hpaused'⟩ := budget_step hu (fun h => hresume (h ▸ List.mem_cons_self)) hpaused
    have hle := ih hrest (fun h => hresume (List.mem_cons_of_mem _ h)) hpaused'
    rw [started, List.flatMap_cons, List.filter_append, List.length_append, ← started]
    omega

/-- What is on the stream and what is missing of the frame that is being sent make up the
frames that have been started. -/
theorem Framed.stream_append (h : Framed encode disk core₀ frames s) :
    s.stream ++ s.unwritten encode =
      (frames.map fun f => sendMessage (f.bytes encode)).flatten := by
  obtain ⟨i, whole, -, hframes, hstream⟩ := h.history
  rw [hstream, hframes, List.map_append, List.flatten_append, List.append_assoc]
  congr 1
  by_cases hzero : s.written = 0
  · rw [part_of_written hzero, if_pos hzero, State.unwritten]
    split
    · rw [if_pos hzero]
      rfl
    · rfl
  · rw [if_neg hzero]
    cases hf : s.core.sending with
    | none => exact absurd (h.idle hf) hzero
    | some f =>
      simp only [State.part, State.unwritten, hf, if_neg hzero, List.take_append_drop,
        Option.toList_some, List.map_cons, List.map_nil, List.flatten_singleton]

theorem unwritten_eq_nil (h : s.core.sending = none) : s.unwritten encode = [] := by
  simp only [State.unwritten, h]

/-- A frame that has been started can be written to its end whatever the flag is. -/
theorem can_finish (disk : Disk) (hne : s.unwritten encode ≠ []) :
    ∃ t, step encode disk s (.more (s.unwritten encode).length) = some t ∧
      t.unwritten encode = [] ∧ t.flag = s.flag := by
  unfold State.unwritten at hne ⊢
  cases hf : s.core.sending with
  | none =>
    simp only [hf] at hne
    exact absurd rfl hne
  | some f =>
    simp only [hf] at hne ⊢
    by_cases hzero : s.written = 0
    · rw [if_pos hzero] at hne
      exact absurd rfl hne
    · rw [if_neg hzero] at hne ⊢
      have hpos := List.length_pos_iff.mpr hne
      rw [List.length_drop] at hpos
      refine ⟨{ s with
        written := s.written + ((sendMessage (f.bytes encode)).drop s.written).length,
        stream := s.stream ++ ((sendMessage (f.bytes encode)).drop s.written).take
          ((sendMessage (f.bytes encode)).drop s.written).length }, ?_, ?_, rfl⟩
      · simp only [step, hf]
        refine guarded_eq_some.mpr ⟨⟨Nat.pos_of_ne_zero hzero, ?_, ?_⟩, rfl⟩
        · rw [List.length_drop]
          exact hpos
        · rw [List.length_drop]
          omega
      · simp only [hf]
        rw [if_neg (by omega), List.length_drop, List.drop_of_length_le (by omega)]

/-- The receiver reads the frames that have been written whole. -/
theorem Framed.received (h : Framed encode disk core₀ frames s)
    (hfits : ∀ f ∈ frames, (f.bytes encode).length ≤ maxPayloadSize) :
    (receiveMessages s.stream).1 =
      (if s.unwritten encode = [] then frames else frames.dropLast).map (Frame.bytes encode) := by
  have hwidth : maxPayloadSize < 256 ^ 8 := by decide
  -- what has been written whole is read, and what is left is not
  have read : ∀ (whole : List (Frame C)) (part : Bytes),
      (∀ f ∈ whole, (f.bytes encode).length ≤ maxPayloadSize) →
      Framing.unframe 8 maxPayloadSize part = none →
      (receiveMessages ((whole.map fun f => sendMessage (f.bytes encode)).flatten ++ part)).1 =
        whole.map (Frame.bytes encode) := by
    intro whole part hall hpart
    have hmap : (whole.map fun f => sendMessage (f.bytes encode)) =
        (whole.map (Frame.bytes encode)).map (Framing.enframe 8) := by
      rw [List.map_map]
      rfl
    have hlen := Framing.length_le_flatten (show 0 < 8 by decide) (whole.map (Frame.bytes encode))
    rw [hmap, receiveMessages, Framing.unframeAll_enframe ?_ hwidth hpart ?_]
    · intro m hm
      obtain ⟨f, hf, rfl⟩ := List.mem_map.mp hm
      exact hall f hf
    · rw [List.length_append]
      omega
  by_cases hnil : s.unwritten encode = []
  · have hstream := h.stream_append
    rw [hnil, List.append_nil] at hstream
    rw [if_pos hnil, hstream, ← read frames [] hfits (Framing.unframe_nil (by decide)),
      List.append_nil]
  · obtain ⟨i, whole, -, hframes, hstream⟩ := h.history
    rw [if_neg hnil]
    cases hf : s.core.sending with
    | none => exact absurd (unwritten_eq_nil hf) hnil
    | some f =>
      simp only [State.unwritten, hf] at hnil
      by_cases hzero : s.written = 0
      · rw [if_pos hzero] at hnil
        exact absurd rfl hnil
      · rw [if_neg hzero] at hnil
        rw [if_neg hzero, hf, Option.toList_some] at hframes
        have hfits' : ∀ g ∈ whole, (g.bytes encode).length ≤ maxPayloadSize := fun g hg =>
          hfits g (hframes ▸ List.mem_append_left _ hg)
        have hlast : (f.bytes encode).length ≤ maxPayloadSize :=
          hfits f (hframes ▸ List.mem_append_right _ (List.mem_singleton_self f))
        rw [hframes, List.dropLast_concat, hstream]
        apply read whole _ hfits'
        simp only [State.part, hf]
        refine Framing.unframe_of_prefix hlast hwidth (List.take_prefix _ _) fun heq => hnil ?_
        have hlen := congrArg List.length heq
        rw [List.length_take] at hlen
        apply List.drop_of_length_le
        show (Framing.enframe 8 _).length ≤ _
        unfold sendMessage at hlen
        omega

/-- **A pause of the LAN sender.** However the flag is paused, resumed and cancelled, after a
pause and before the next resume at most one chunk frame is started; and all frames are on the
stream whole, but for the one that is being written, which can be written to its end. -/
theorem paused_send_stops (encode : Payload C → Bytes) (disk : Disk) (key : C.Key)
    (metadata : TransferMetadata C) (startOffset : Nat) (as : List (Act C)) (t : State C)
    (hrun : (machine encode disk).run (State.start key metadata startOffset) as = some t) :
    (∀ before paused after, as = before ++ .pause :: (paused ++ after) → .resume ∉ paused →
      ((started paused).filter fun f => f.tag = tagChunk).length ≤ 1) ∧
    t.stream ++ t.unwritten encode =
      ((started as).map fun f => sendMessage (f.bytes encode)).flatten ∧
    (t.unwritten encode ≠ [] → ∃ u, step encode disk t (.more (t.unwritten encode).length) = some u ∧
      u.unwritten encode = []) ∧
    (t.core.pc = .returned → t.unwritten encode = []) ∧
    ((∀ f ∈ started as, (f.bytes encode).length ≤ maxPayloadSize) →
      (receiveMessages t.stream).1 = (if t.unwritten encode = [] then started as
        else (started as).dropLast).map (Frame.bytes encode)) := by
  have h := refines (Framed.start encode disk key metadata startOffset) hrun
  rw [List.nil_append] at h
  refine ⟨fun before paused after hsplit hresume => ?_, h.stream_append, fun hne => ?_, fun hp => ?_,
    h.received⟩
  · rw [hsplit, Machine.run_append] at hrun
    obtain ⟨u, -, hu⟩ := Option.bind_eq_some_iff.mp hrun
    obtain ⟨v, hv, hv'⟩ := Option.bind_eq_some_iff.mp hu
    rw [Machine.run_append] at hv'
    obtain ⟨w, hw, -⟩ := Option.bind_eq_some_iff.mp hv'
    obtain rfl := Option.some.inj hv
    have hle := budget_run hw hresume rfl
    have hone := State.budget_le { u with flag := u.flag.pause }
    omega
  · obtain ⟨u, hu, hnil, -⟩ := can_finish disk hne
    exact ⟨u, hu, hnil⟩
  · apply unwritten_eq_nil
    simp only [Sender.State.sending, hp]

/-- The metadata of a source of one byte. -/
def sampleMetadata : TransferMetadata .plain := createMetadata .plain [] [] [1] 0 false

/-- The block of that byte, and how much of the source it is. -/
def sampleBlock : Frame .plain × Nat :=
  (Frame.ofChunk 0 false (Primitives.plain.encrypt () (buildNonce [0, 0, 0, 0] 0) [1]), 1)

/-- The loop is about to take the block. -/
def sampleBefore : List (Act .plain) :=
  [.loop .seek, .loop (.read [1]), .loop (.push sampleBlock)] ++ List.replicate 4 .poll ++
    [.loop .proceed, .poll, .poll]

/-- After a pause the block is sent, and a cancel comes in the middle of its frame. -/
def samplePaused : List (Act .plain) :=
  [.poll, .loop (.dequeue sampleBlock), .start sampleBlock.1 5, .cancel, .more 26,
    .loop (.write sampleBlock), .poll, .poll, .poll, .loop .seeCancel]

theorem samplePaused_stops : ∃ t,
    (machine (fun _ => []) (Disk.ofFile [1])).run (State.start () sampleMetadata 0)
      (sampleBefore ++ .pause :: (samplePaused ++ [])) = some t ∧
    ((started samplePaused).filter fun f => f.tag = tagChunk).length ≤ 1 ∧
    t.stream ++ t.unwritten (fun _ => []) = sendMessage (sampleBlock.1.bytes fun _ => []) := by
  have hrun : (machine (fun _ => []) (Disk.ofFile [1])).run (State.start () sampleMetadata 0)
      (sampleBefore ++ .pause :: (samplePaused ++ [])) = some _ := (Option.some_get rfl).symm
  obtain ⟨hone, hstream, -⟩ := paused_send_stops _ _ _ _ _ _ _ hrun
  exact ⟨_, hrun, hone sampleBefore samplePaused [] rfl (by simp [samplePaused]), hstream⟩

end Loop

end Lan

end P2PTransfer
