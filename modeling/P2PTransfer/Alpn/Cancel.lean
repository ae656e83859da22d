import P2PTransfer.Alpn.Transfer

/-!
# Cancelling a QUIC transfer

`cancel_transfer` signals the registered flag and then takes it out of the map,
while the loops look the flag up again in every iteration. What becomes of a
cancel is decided by where the function is when the flag is taken out: a loop
that holds the flag in front of a poll returns the cancelled error, any other
place never hears of it.

## Main definitions

- `Sender.State.caught`, `Receiver.State.caught` — the loop holds the cancelled
  flag and has a poll ahead that looks at nothing else
- `Sender.Kept`, `Receiver.Kept` — every continuation returns the cancelled error
- `CancelRun` — a run up to the end of `cancel_transfer`
-/

namespace P2PTransfer.Alpn

open Transition

variable {C : Primitives}

/-- Any step may be taken. -/
abbrev anyStep {σ α : Type*} : σ → α → Prop := fun _ _ => True

namespace Sender

/-- The flag is registered and the loop has not ended. -/
def Pc.window : Pc → Bool
  | .writeRequest | .awaitResponse | .getFlag | .checkFlag | .dequeue | .write => true
  | _ => false

/-- Before the flag is registered. -/
def Pc.unregistered : Pc → Bool
  | .connect | .activate | .register => true
  | _ => false

/-- On the way to the cancelled error, or there. -/
def State.cancels (s : State C) : Prop :=
  s.pc = .cancelActive ∨ s.pc = .cancelFlag ∨
    (s.pc = .returned ∧ s.result = some (.error .cancelled))

/-- The loop holds the cancelled flag in front of a poll, or has seen it. -/
def State.caught (s : State C) : Prop := (s.pc.polls ∧ s.seesCancel) ∨ s.cancels

/-- No flag is registered any more, and the loop has not caught the cancelled one. -/
structure Lost (s : State C) : Prop where
  flagless : s.control.registered = none
  registered : s.pc.unregistered = false
  missed : ¬ s.caught
  result : s.result ≠ some (.error .cancelled)

theorem caught_step {disk : Disk} {s t : State C} {a : Act} (h : s.caught)
    (hs : step disk s a = some t) : t.caught ∧ t.dequeued = s.dequeued := by
  unfold State.caught State.cancels at h
  cases a with
  | command c =>
    obtain ⟨control, hc, rfl⟩ := Option.map_eq_some_iff.mp hs
    refine ⟨h.imp (fun hp => ⟨hp.1, Control.cancelled_command hp.2 hc⟩) id, rfl⟩
  | seeCancel =>
    simp only [step, guarded_eq_some] at hs
    obtain ⟨g, rfl⟩ := hs
    exact ⟨.inr (.inl rfl), rfl⟩
  | _ =>
    simp only [step, guarded_eq_some] at hs
    obtain ⟨g, rfl⟩ := hs
    first
      | exact ⟨h, rfl⟩
      | grind -ring -linarith [State.caught, State.cancels, State.seesCancel, Pc.polls_iff, strikes]

theorem lost_step {disk : Disk} {s t : State C} {a : Act} (h : Lost s)
    (hs : step disk s a = some t) : Lost t := by
  obtain ⟨h1, h2, h3, h4⟩ := h
  unfold State.caught State.cancels at h3
  cases a with
  | command c =>
    obtain ⟨control, hc, rfl⟩ := Option.map_eq_some_iff.mp hs
    obtain ⟨hf, hr⟩ := Control.flags_command h1 hc
    have hsame : control.cancelled s.flag = s.control.cancelled s.flag := by
      simp [Control.cancelled, Control.flag, hf]
    refine ⟨hr, h2, fun hcaught => h3 ?_, h4⟩
    exact hcaught.imp (fun hp => ⟨hp.1, hsame.symm.trans hp.2⟩) id
  | getFlag =>
    simp only [step, guarded_eq_some] at hs
    obtain ⟨g, rfl⟩ := hs
    refine ⟨h1, rfl, ?_, h4⟩
    simp [State.caught, State.cancels, State.seesCancel, h1]
  | fail e =>
    simp only [step, guarded_eq_some] at hs
    obtain ⟨⟨g, -⟩, rfl⟩ := hs
    have he : e ≠ .cancelled := by
      rintro rfl
      simp [strikes] at g
    refine ⟨?_, rfl, ?_, by simpa using he⟩
    · show (if s.pc = .writeRequest then s.control.deactivate else s.control).registered = none
      split <;> simp [h1]
    · simp [State.caught, State.cancels, Pc.polls, he]
  | _ =>
    simp only [step, guarded_eq_some] at hs
    obtain ⟨g, rfl⟩ := hs
    refine ⟨?_, ?_, ?_, ?_⟩ <;> first
      | assumption
      | rfl
      | grind -ring -linarith [State.caught, State.cancels, State.seesCancel, Pc.polls_iff, Pc.unregistered]

/-- Until the command takes it out, the registered flag is the one that the loop
holds at its polls. -/
structure Registered (s : State C) : Prop where
  result : s.result = some (.error .cancelled) → s.pc = .returned
  registered : s.control.cancel ≠ .done → s.pc.window → ∃ i, s.control.registered = some i ∧
    i < s.control.flags.length ∧ (s.pc.polls → s.flag = some i)

theorem registered_start : Registered ({} : State C) where
  result := by simp
  registered := by simp [Pc.window]

theorem registered_step {disk : Disk} {s t : State C} {a : Act} (h : Registered s)
    (hs : step disk s a = some t) : Registered t := by
  obtain ⟨h1, h2⟩ := h
  cases a with
  | command c =>
    obtain ⟨control, hc, rfl⟩ := Option.map_eq_some_iff.mp hs
    refine ⟨h1, fun hd hw => ?_⟩
    obtain ⟨hl, hr | hr⟩ := Control.registered_command hc
    · have hnd : s.control.cancel ≠ .done := fun he => by
        by_cases hi : s.control.cancel = .idle
        · simp [hi] at he
        · exact hd ((Control.cancel_command hc hi).2 he)
      obtain ⟨i, hi, hlt, hp⟩ := h2 hnd hw
      exact ⟨i, hr.trans hi, hl ▸ hlt, hp⟩
    · exact absurd hr.2 hd
  | register =>
    simp only [step, guarded_eq_some] at hs
    obtain ⟨g, rfl⟩ := hs
    refine ⟨fun hr => ?_, fun _ _ => ⟨s.control.flags.length, rfl, ?_, by simp [Pc.polls]⟩⟩
    · have := h1 hr
      simp [g] at this
    · simp [Control.register]
  | getFlag =>
    simp only [step, guarded_eq_some] at hs
    obtain ⟨g, rfl⟩ := hs
    refine ⟨fun hr => ?_, fun hd _ => ?_⟩
    · have := h1 hr
      simp [g] at this
    · obtain ⟨i, hi, hlt, -⟩ := h2 hd (by simp [g, Pc.window])
      exact ⟨i, hi, hlt, fun _ => hi⟩
  | fail e =>
    simp only [step, guarded_eq_some] at hs
    obtain ⟨g, rfl⟩ := hs
    exact ⟨fun _ => rfl, by simp [Pc.window]⟩
  | _ =>
    simp only [step, guarded_eq_some] at hs
    obtain ⟨g, rfl⟩ := hs
    refine ⟨?_, ?_⟩ <;> first
      | assumption
      | grind -ring -linarith [Pc.window, Pc.polls_iff]

/-- Between the signal and the removal of the flag nothing more is dequeued. -/
structure Signalled (dequeued : Nat) (s : State C) : Prop where
  registered : s.pc.unregistered = false
  started : s.control.cancel ≠ .idle
  dequeued : s.control.cancel ≠ .done → s.dequeued = dequeued ∧ (s.pc.window →
    ∃ i, s.control.registered = some i ∧ s.control.cancelled (some i) ∧
      (s.pc.polls → s.flag = some i))

theorem signalled_of_signal (disk : Disk) {s t : State C} (h : Registered s)
    (hw : s.pc.window) (hs : step disk s (.command .cancelSignal) = some t) :
    Signalled s.dequeued t := by
  obtain ⟨control, hc, rfl⟩ := Option.map_eq_some_iff.mp hs
  simp only [Control.command, guarded_eq_some] at hc
  obtain ⟨hidle, rfl⟩ := hc
  obtain ⟨i, hi, hlt, hp⟩ := h.registered (by simp [hidle]) hw
  refine ⟨?_, by simp, fun _ => ⟨rfl, fun _ => ⟨i, by simp [hi], ?_, hp⟩⟩⟩
  · cases hpc : s.pc <;> simp_all [Pc.window, Pc.unregistered]
  · exact s.control.cancelled_signal_self hi hlt

theorem signalled_step {disk : Disk} {k : Nat} {s t : State C} {a : Act} (h : Signalled k s)
    (hs : step disk s a = some t) : Signalled k t := by
  obtain ⟨h1, h2, h3⟩ := h
  cases a with
  | command c =>
    obtain ⟨control, hc, rfl⟩ := Option.map_eq_some_iff.mp hs
    obtain ⟨hi, hdone⟩ := Control.cancel_command hc h2
    refine ⟨h1, hi, fun hd => ?_⟩
    obtain ⟨hk, hreg⟩ := h3 fun he => hd (hdone he)
    refine ⟨hk, fun hw => ?_⟩
    obtain ⟨i, hr, hcan, hp⟩ := hreg hw
    obtain ⟨-, hsame | hgone⟩ := Control.registered_command hc
    · exact ⟨i, hsame.trans hr, Control.cancelled_command hcan hc, hp⟩
    · exact absurd hgone.2 hd
  | fail e =>
    simp only [step, guarded_eq_some] at hs
    obtain ⟨g, rfl⟩ := hs
    refine ⟨rfl, ?_, fun hd => ⟨?_, by simp [Pc.window]⟩⟩
    · show (if s.pc = .writeRequest then s.control.deactivate else s.control).cancel ≠ .idle
      split <;> simpa using h2
    · refine (h3 fun he => hd ?_).1
      show (if s.pc = .writeRequest then s.control.deactivate else s.control).cancel = .done
      split <;> simpa using he
  | _ =>
    simp only [step, guarded_eq_some] at hs
    obtain ⟨g, rfl⟩ := hs
    refine ⟨?_, ?_, ?_⟩ <;> first
      | assumption
      | grind -ring -linarith [State.seesCancel, Pc.polls_iff, Pc.unregistered, Pc.window]

/-- The sender on its own. Its peer may answer anything, and its disk may read anything
that `disk` allows. -/
def machine (disk : Disk) : Machine (State C) Act := ⟨step disk⟩

/-- The steps of the function itself, without the reader task and the commands. -/
def Act.own : Act → Bool
  | .hashPrefix _ | .seek | .read _ | .endOfFile | .sendChunk | .sendFailed | .readError _
  | .dropStream | .command _ => false
  | _ => true

/-- The function has returned the cancelled error. -/
def Cancelled (s : State C) : Prop := s.pc = .returned ∧ s.result = some (.error .cancelled)

/-- The way to the cancelled error. -/
def Pc.exitRank : Pc → Nat
  | .returned => 0
  | .cancelFlag => 1
  | .cancelActive => 2
  | _ => 3

/-- A caught function returns the cancelled error. -/
theorem caught_ends {disk : Disk} {s : State C} (h : s.caught) :
    (machine disk).EndsIn (fun _ a => a.own) Cancelled s := by
  refine Machine.endsIn_of_rank State.caught (fun s => s.pc.exitRank)
    (fun t a u ht _ hs => (caught_step ht hs).1) (fun t a u ht ho hs => ?_) (fun t ht stuck => ?_) h
  · unfold State.caught State.cancels at ht
    cases a <;> simp only [Act.own, Bool.false_eq_true] at ho
    all_goals
      simp only [machine, step, guarded_eq_some] at hs
      obtain ⟨g, rfl⟩ := hs
      grind -ring -linarith [Pc.exitRank, State.seesCancel, Pc.polls_iff, strikes]
  · rcases ht with ht | ht | ht | ht
    · exact absurd ht (guarded_eq_none.mp (stuck .seeCancel rfl))
    · exact absurd ht (guarded_eq_none.mp (stuck .cancelActive rfl))
    · exact absurd ht (guarded_eq_none.mp (stuck .cancelFlag rfl))
    · exact ht

/-- A function that has lost the cancel never returns the cancelled error. -/
theorem lost_never_ends {disk : Disk} {s : State C} (h : Lost s) :
    ¬ (machine disk).EndsIn (fun _ a => a.own) Cancelled s := by
  intro he
  obtain ⟨t, ht, -, hc⟩ := he.exists_stuck
  exact (ht.invariant h fun _ _ _ hl _ hs => lost_step hl hs).result hc.2

/-- From here on the function dequeues no further chunk and returns the cancelled
error, whatever else happens. -/
def Kept (disk : Disk) (dequeued : Nat) (s : State C) : Prop :=
  ∀ t, (machine disk).Reach anyStep s t → t.dequeued = dequeued ∧
    (machine disk).EndsIn (fun _ a => a.own) Cancelled t

theorem kept_iff_caught {disk : Disk} {s t : State C} (hreg : s.pc.unregistered = false)
    (hr : Registered s)
    (hs : step disk s (.command .cancelUnregister) = some t) :
    Kept disk s.dequeued t ↔ s.caught := by
  obtain ⟨control, hc, rfl⟩ := Option.map_eq_some_iff.mp hs
  simp only [Control.command, guarded_eq_some] at hc
  obtain ⟨-, rfl⟩ := hc
  constructor
  · intro hk
    by_contra hcaught
    refine lost_never_ends ?_ (hk _ .refl).2
    refine ⟨rfl, hreg, hcaught, fun he => hcaught ?_⟩
    exact .inr (.inr (.inr ⟨hr.result he, he⟩))
  · intro hcaught t ht
    have hi := ht.invariant (I := fun t => t.caught ∧ t.dequeued = s.dequeued) ⟨hcaught, rfl⟩
      fun u a v hu _ hs => ⟨(caught_step hu.1 hs).1, (caught_step hu.1 hs).2.trans hu.2⟩
    exact ⟨hi.2, caught_ends hi.1⟩

end Sender

namespace Receiver

/-- The flag is registered and the loop has not ended. -/
def Pc.window : Pc → Bool
  | .awaitAnswer | .rejectActive | .rejectFlag | .prepare | .respond | .getFlag | .checkFlag
  | .read | .forward => true
  | _ => false

/-- Before the flag is registered. -/
def Pc.unregistered : Pc → Bool
  | .readRequest | .activate | .register => true
  | _ => false

/-- After the loop. -/
def Pc.finishing : Pc → Bool
  | .close | .join | .clearFlag | .settle | .clearActive | .returned => true
  | _ => false

/-- The loop is at its check with the cancelled flag, or has left through it. -/
def State.caught (s : State C) : Prop :=
  (s.pc = .checkFlag ∧ s.seesCancel) ∨ s.recvResult = .failed .cancelled

def WriterFailed (s : State C) : Prop := ∃ e, s.writer = .failed e

/-- A caught receiver that has taken so many chunks. -/
structure Caught (chunks : Nat) (s : State C) : Prop where
  chunks : s.chunks = chunks
  caught : s.caught
  finishing : s.recvResult = .failed .cancelled → s.pc.finishing
  result : s.pc = .clearActive ∨ s.pc = .returned →
    s.result = some (.error .cancelled) ∨ WriterFailed s

/-- No flag is registered any more, and the loop neither has nor holds the cancel. -/
structure Lost (s : State C) : Prop where
  flagless : s.control.registered = none
  registered : s.pc.unregistered = false
  missed : s.pc = .checkFlag ∨ s.pc = .read → s.seesCancel = false
  recvResult : s.recvResult ≠ .failed .cancelled
  writer : s.writer ≠ .failed .cancelled
  result : s.result ≠ some (.error .cancelled)

theorem caught_step {outputDir : Text} {k : Nat} {s t : State C} {a : Act} (h : Caught k s)
    (hs : step outputDir s a = some t) : Caught k t := by
  obtain ⟨h1, h2, h3, h4⟩ := h
  unfold State.caught at h2
  cases a with
  | command c =>
    obtain ⟨control, hc, rfl⟩ := Option.map_eq_some_iff.mp hs
    exact ⟨h1, h2.imp (fun hp => ⟨hp.1, Control.cancelled_command hp.2 hc⟩) id, h3, h4⟩
  | _ =>
    simp only [step, guarded_eq_some] at hs
    obtain ⟨g, rfl⟩ := hs
    refine ⟨?_, ?_, ?_, ?_⟩ <;> first
      | assumption
      | grind -ring -linarith [State.caught, State.seesCancel, Pc.finishing, WriterFailed]

theorem lost_step {outputDir : Text} {s t : State C} {a : Act} (h : Lost s)
    (hs : step outputDir s a = some t) : Lost t := by
  obtain ⟨h1, h2, h3, h4, h5, h6⟩ := h
  cases a with
  | command c =>
    obtain ⟨control, hc, rfl⟩ := Option.map_eq_some_iff.mp hs
    obtain ⟨hf, hr⟩ := Control.flags_command h1 hc
    have hsame : control.cancelled s.flag = s.control.cancelled s.flag := by
      simp [Control.cancelled, Control.flag, hf]
    exact ⟨hr, h2, fun hp => hsame.trans (h3 hp), h4, h5, h6⟩
  | getFlag =>
    simp only [step, guarded_eq_some] at hs
    obtain ⟨g, rfl⟩ := hs
    exact ⟨h1, rfl, fun _ => by simp [State.seesCancel, h1], h4, h5, h6⟩
  | _ =>
    simp only [step, guarded_eq_some] at hs
    obtain ⟨g, rfl⟩ := hs
    refine ⟨?_, ?_, ?_, ?_, ?_, ?_⟩ <;> first
      | assumption
      | rfl
      | grind -ring -linarith [State.seesCancel, Pc.unregistered]

/-- Until the command takes it out, the registered flag is the one that the loop
holds at its check and in its select. -/
structure Registered (s : State C) : Prop where
  registered : s.control.cancel ≠ .done → s.pc.window → ∃ i, s.control.registered = some i ∧
    i < s.control.flags.length ∧ (s.pc = .checkFlag ∨ s.pc = .read → s.flag = some i)
  running : s.pc.finishing = false → s.recvResult = .running
  outcome : s.recvResult = .failed .cancelled → s.pc = .clearActive ∨ s.pc = .returned →
    s.result = some (.error .cancelled) ∨ WriterFailed s
  result : s.result = some (.error .cancelled) → s.recvResult = .failed .cancelled
  writer : s.writer ≠ .failed .cancelled

theorem registered_start (fs : Files) : Registered ({ files := fs } : State C) := by
  constructor <;> simp [Pc.window]

theorem registered_step {outputDir : Text} {s t : State C} {a : Act} (h : Registered s)
    (hs : step outputDir s a = some t) : Registered t := by
  obtain ⟨h1, h2, h3, h4, h5⟩ := h
  cases a with
  | command c =>
    obtain ⟨control, hc, rfl⟩ := Option.map_eq_some_iff.mp hs
    refine ⟨fun hd hw => ?_, h2, h3, h4, h5⟩
    obtain ⟨hl, hr | hr⟩ := Control.registered_command hc
    · have hnd : s.control.cancel ≠ .done := fun he => by
        by_cases hi : s.control.cancel = .idle
        · simp [hi] at he
        · exact hd ((Control.cancel_command hc hi).2 he)
      obtain ⟨i, hi, hlt, hp⟩ := h1 hnd hw
      exact ⟨i, hr.trans hi, hl ▸ hlt, hp⟩
    · exact absurd hr.2 hd
  | register =>
    simp only [step, guarded_eq_some] at hs
    obtain ⟨g, rfl⟩ := hs
    refine ⟨fun _ _ => ⟨s.control.flags.length, rfl, ?_, by simp⟩, ?_, by simp, h4, h5⟩
    · simp [Control.register]
    · exact fun _ => h2 (by simp [g, Pc.finishing])
  | respond =>
    simp only [step, guarded_eq_some] at hs
    obtain ⟨g, rfl⟩ := hs
    refine ⟨fun hd _ => ?_, fun _ => h2 (by simp [g, Pc.finishing]), by simp, h4, ?_⟩
    · obtain ⟨i, hi, hlt, -⟩ := h1 hd (by simp [g, Pc.window])
      exact ⟨i, hi, hlt, by simp⟩
    · cases s.resuming <;> simp
  | answer accepted =>
    simp only [step, guarded_eq_some] at hs
    obtain ⟨g, rfl⟩ := hs
    refine ⟨fun hd _ => ?_, fun _ => h2 (by simp [g, Pc.finishing]), ?_, h4, h5⟩
    · obtain ⟨i, hi, hlt, -⟩ := h1 hd (by simp [g, Pc.window])
      exact ⟨i, hi, hlt, by cases accepted <;> simp⟩
    · cases accepted <;> simp
  | _ =>
    simp only [step, guarded_eq_some] at hs
    obtain ⟨g, rfl⟩ := hs
    refine ⟨?_, ?_, ?_, ?_, ?_⟩ <;> first
      | assumption
      | grind -ring -linarith [Pc.window, Pc.finishing, WriterFailed]

/-- Between the signal and the removal of the flag the select takes at most one
more chunk. -/
structure Signalled (chunks : Nat) (s : State C) : Prop where
  registered : s.pc.unregistered = false
  started : s.control.cancel ≠ .idle
  chunks : s.control.cancel ≠ .done →
    (s.chunks = chunks ∨ (s.chunks = chunks + 1 ∧ s.pc ≠ .read)) ∧
    (s.pc.window → ∃ i, s.control.registered = some i ∧ s.control.cancelled (some i) ∧
      (s.pc = .checkFlag ∨ s.pc = .read → s.flag = some i))

theorem signalled_of_signal (outputDir : Text) {s t : State C} (h : Registered s)
    (hw : s.pc.window) (hs : step outputDir s (.command .cancelSignal) = some t) :
    Signalled s.chunks t := by
  obtain ⟨control, hc, rfl⟩ := Option.map_eq_some_iff.mp hs
  simp only [Control.command, guarded_eq_some] at hc
  obtain ⟨hidle, rfl⟩ := hc
  obtain ⟨i, hi, hlt, hp⟩ := h.registered (by simp [hidle]) hw
  refine ⟨?_, by simp, fun _ => ⟨.inl rfl, fun _ => ⟨i, by simp [hi], ?_, hp⟩⟩⟩
  · cases hpc : s.pc <;> simp_all [Pc.window, Pc.unregistered]
  · exact s.control.cancelled_signal_self hi hlt

theorem signalled_step {outputDir : Text} {k : Nat} {s t : State C} {a : Act}
    (h : Signalled k s) (hs : step outputDir s a = some t) : Signalled k t := by
  obtain ⟨h1, h2, h3⟩ := h
  cases a with
  | command c =>
    obtain ⟨control, hc, rfl⟩ := Option.map_eq_some_iff.mp hs
    obtain ⟨hi, hdone⟩ := Control.cancel_command hc h2
    refine ⟨h1, hi, fun hd => ?_⟩
    obtain ⟨hk, hreg⟩ := h3 fun he => hd (hdone he)
    refine ⟨hk, fun hw => ?_⟩
    obtain ⟨i, hr, hcan, hp⟩ := hreg hw
    obtain ⟨-, hsame | hgone⟩ := Control.registered_command hc
    · exact ⟨i, hsame.trans hr, Control.cancelled_command hcan hc, hp⟩
    · exact absurd hgone.2 hd
  | answer accepted =>
    simp only [step, guarded_eq_some] at hs
    obtain ⟨g, rfl⟩ := hs
    cases accepted <;> exact ⟨rfl, h2, by grind -ring -linarith [Pc.window]⟩
  | rejectActive =>
    simp only [step, guarded_eq_some] at hs
    obtain ⟨g, rfl⟩ := hs
    refine ⟨rfl, by simpa using h2, fun hd => ?_⟩
    obtain ⟨hk, hreg⟩ := h3 (by simpa using hd)
    obtain ⟨i, hr, hcan, -⟩ := hreg (by simp [g, Pc.window])
    exact ⟨by simpa [g] using hk, fun _ => ⟨i, hr, hcan, by simp⟩⟩
  | _ =>
    simp only [step, guarded_eq_some] at hs
    obtain ⟨g, rfl⟩ := hs
    refine ⟨?_, ?_, ?_⟩ <;> first
      | assumption
      | grind -ring -linarith [State.seesCancel, Pc.unregistered, Pc.window]

/-- A fault of the disk under the writer task, whose error the function returns
instead. -/
def Act.diskFault : Act → Bool
  | .diskError _ | .writeError _ => true
  | _ => false

/-- The steps of the function and its writer task while the disk works. -/
def Act.own : Act → Bool
  | .diskError _ | .writeError _ | .command _ => false
  | _ => true

/-- The runs in which the disk works. -/
abbrev diskWorks : State C → Act → Prop := fun _ a => ¬ a.diskFault

/-- The receiver on its own. Its peer may send anything. -/
def machine (outputDir : Text) : Machine (State C) Act := ⟨step outputDir⟩

/-- The function has returned the cancelled error. -/
def Cancelled (s : State C) : Prop := s.pc = .returned ∧ s.result = some (.error .cancelled)

/-- What the writer task needs to come to its end. -/
structure Drains (outputDir : Text) (fs : Files) (s : State C) : Prop where
  phases : Phases outputDir fs s
  joining : s.pc = .join → s.closed
  started : s.pc.finishing → s.pc ≠ .returned → s.writer ≠ .idle
  existing : s.pc = .respond ∨ s.writer = .hashPrefix → s.resuming → s.resumeOffset ≤ s.content.length
  resuming : s.writer = .hashPrefix → s.resuming
  works : ¬ WriterFailed s

theorem resumeOffset_le (fs : Files) (outputDir : Text) (request : TransferRequest) :
    resumeOffset fs outputDir request ≤ ((fs (finalPath fs outputDir request)).getD []).length := by
  unfold resumeOffset
  split
  · rename_i h
    simp only [finalPath, h, if_true]
    exact Nat.div_mul_le_self _ _
  · exact Nat.zero_le _

theorem Drains.start (outputDir : Text) (fs : Files) :
    Drains outputDir fs ({ files := fs } : State C) where
  phases := Phases.start outputDir fs
  joining := by simp
  started := by simp [Pc.finishing]
  existing := by simp
  resuming := by simp
  works := by simp [WriterFailed]

theorem Drains.step {outputDir : Text} {fs : Files} {s t : State C} {a : Act}
    (h : Drains outputDir fs s) (hd : diskWorks s a) (hs : step outputDir s a = some t) :
    Drains outputDir fs t := by
  have hp := h.phases.step hs
  obtain ⟨h0, h1, h2, h3, h4, h5⟩ := h
  have hidle : s.pc.deciding → s.writer = .idle := fun hd => (h0.deciding hd).1
  have hrun : s.pc.streaming → s.writer ≠ .idle := h0.streaming
  cases a with
  | command c =>
    obtain ⟨control, hc, rfl⟩ := Option.map_eq_some_iff.mp hs
    exact ⟨hp, h1, h2, h3, h4, h5⟩
  | prepare =>
    simp only [Receiver.step, guarded_eq_some] at hs
    obtain ⟨g, rfl⟩ := hs
    have hw := hidle (by simp [g, Pc.deciding])
    refine ⟨hp, by simp, by simp [Pc.finishing], fun _ _ => ?_, by simp [hw], h5⟩
    exact resumeOffset_le s.files outputDir s.request
  | respond =>
    simp only [Receiver.step, guarded_eq_some] at hs
    obtain ⟨g, rfl⟩ := hs
    refine ⟨hp, by simp, by simp [Pc.finishing], fun _ => h3 (.inl g), ?_, ?_⟩
    · cases hr : s.resuming <;> simp
    · cases hr : s.resuming <;> simp [WriterFailed]
  | settle e =>
    simp only [Receiver.step, guarded_eq_some] at hs
    obtain ⟨⟨g, -⟩, rfl⟩ := hs
    have hw := h0.settled (.inr (.inl g))
    exact ⟨hp, by simp, by simp [hw], by simp [hw], by simp [hw], h5⟩
  | diskError detail => exact absurd rfl hd
  | writeError detail => exact absurd rfl hd
  | _ =>
    simp only [Receiver.step, guarded_eq_some] at hs
    obtain ⟨g, rfl⟩ := hs
    refine ⟨hp, ?_, ?_, ?_, ?_, ?_⟩ <;> first
      | assumption
      | grind -ring -linarith [Pc.finishing, Pc.deciding, Pc.streaming, WriterFailed, State.content]

def Pc.exitRank : Pc → Nat
  | .returned => 0
  | .clearActive => 1
  | .settle => 2
  | .clearFlag => 3
  | .join => 4
  | .close => 5
  | _ => 6

/-- The steps that the writer task still has to do. -/
def State.writerRank (s : State C) : Nat :=
  match s.writer with
  | .hashPrefix => s.channel.length + 2 + (s.resumeOffset - s.hashed.length)
  | .createFile => s.channel.length + 2
  | .write => s.channel.length + 1
  | _ => 0

theorem caught_lowers {outputDir : Text} {k : Nat} {s t : State C} {a : Act} (h : Caught k s)
    (ha : a.own) (hs : step outputDir s a = some t) :
    t.pc.exitRank + t.writerRank < s.pc.exitRank + s.writerRank := by
  obtain ⟨-, h2, h3, -⟩ := h
  have hpc : (s.pc = .checkFlag ∧ s.seesCancel) ∨ s.pc.finishing := h2.imp_right h3
  cases a with
  | hashPrefix n =>
    simp only [step, guarded_eq_some] at hs
    obtain ⟨⟨hw, hlt, hn, hlen, hpos⟩, rfl⟩ := hs
    have hadd : (s.hashed ++ (s.content.drop s.hashed.length).take n).length =
        s.hashed.length + n := by
      rw [List.length_append, List.length_take, List.length_drop]
      omega
    simp only [State.writerRank, hw, hadd]
    omega
  | writeChunk chunk =>
    simp only [step, guarded_eq_some] at hs
    obtain ⟨⟨hw, hhead⟩, rfl⟩ := hs
    obtain ⟨rest, hrest⟩ := List.head?_eq_some_iff.mp hhead
    simp [State.writerRank, hw, hrest]
  | command c => simp [Act.own] at ha
  | diskError detail => simp [Act.own] at ha
  | writeError detail => simp [Act.own] at ha
  | _ =>
    simp only [step, guarded_eq_some] at hs
    obtain ⟨g, rfl⟩ := hs
    grind -ring -linarith [Pc.exitRank, State.writerRank, Pc.finishing]

/-- The writer task never keeps the function waiting. -/
theorem not_join {outputDir : Text} {fs : Files} {s : State C} (h : Drains outputDir fs s)
    (stuck : (machine outputDir).Stuck (fun _ a => a.own) s) : s.pc ≠ .join := by
  intro hpc
  cases hw : s.writer with
  | idle => exact h.started (by simp [hpc, Pc.finishing]) (by simp [hpc]) hw
  | hashPrefix =>
    have hlen := h.existing (.inr hw) (h.resuming hw)
    by_cases hlt : s.hashed.length < s.resumeOffset
    · exact absurd ⟨hw, hlt, by omega, by omega, by omega⟩
        (guarded_eq_none.mp (stuck (.hashPrefix 1) rfl))
    · exact absurd ⟨hw, not_lt.mp hlt⟩ (guarded_eq_none.mp (stuck .openAppend rfl))
  | createFile => exact absurd hw (guarded_eq_none.mp (stuck .createFile rfl))
  | write =>
    cases hch : s.channel with
    | nil => exact absurd ⟨hw, hch, h.joining hpc⟩ (guarded_eq_none.mp (stuck .flush rfl))
    | cons c cs =>
      exact absurd ⟨hw, by simp [hch]⟩ (guarded_eq_none.mp (stuck (.writeChunk c) rfl))
  | done => exact absurd ⟨hpc, hw⟩ (guarded_eq_none.mp (stuck .join rfl))
  | failed e => exact h.works ⟨e, hw⟩

/-- A caught function returns the cancelled error. -/
theorem caught_ends {outputDir : Text} {fs : Files} {k : Nat} {s : State C} (h : Caught k s)
    (hd : Drains outputDir fs s) :
    (machine outputDir).EndsIn (fun _ a => a.own) Cancelled s := by
  refine Machine.endsIn_of_rank (fun s => Caught k s ∧ Drains outputDir fs s)
    (fun s => s.pc.exitRank + s.writerRank) ?_ ?_ ?_ ⟨h, hd⟩
  · rintro t a u ⟨ht, hdt⟩ ho hs
    refine ⟨caught_step ht hs, hdt.step ?_ hs⟩
    cases a <;> simp_all [Act.own, Act.diskFault]
  · rintro t a u ⟨ht, -⟩ ho hs
    exact caught_lowers ht ho hs
  · rintro t ⟨ht, hdt⟩ stuck
    rcases ht.caught with hc | hr
    · exact absurd ⟨.inl hc.1, hc.2⟩ (guarded_eq_none.mp (stuck .seeCancel rfl))
    cases hpc : t.pc with
    | close => exact absurd hpc (guarded_eq_none.mp (stuck .close rfl))
    | join => exact absurd hpc (not_join hdt stuck)
    | clearFlag => exact absurd hpc (guarded_eq_none.mp (stuck .clearFlag rfl))
    | settle => exact absurd ⟨hpc, hr⟩ (guarded_eq_none.mp (stuck (.settle .cancelled) rfl))
    | clearActive => exact absurd hpc (guarded_eq_none.mp (stuck .clearActive rfl))
    | returned => exact ⟨hpc, (ht.result (.inr hpc)).resolve_right hdt.works⟩
    | _ =>
      have hf := ht.finishing hr
      simp [hpc, Pc.finishing] at hf

/-- A function that has lost the cancel never returns the cancelled error. -/
theorem lost_never_ends {outputDir : Text} {s : State C} (h : Lost s) :
    ¬ (machine outputDir).EndsIn (fun _ a => a.own) Cancelled s := by
  intro he
  obtain ⟨t, ht, -, hc⟩ := he.exists_stuck
  exact (ht.invariant h fun _ _ _ hl _ hs => lost_step hl hs).result hc.2

/-- From here on the function takes no further chunk and returns the cancelled
error, whatever else happens. -/
def Kept (outputDir : Text) (chunks : Nat) (s : State C) : Prop :=
  ∀ t, (machine outputDir).Reach diskWorks s t → t.chunks = chunks ∧
    (machine outputDir).EndsIn (fun _ a => a.own) Cancelled t

theorem kept_iff_caught {outputDir : Text} {fs : Files} {k : Nat} {s t : State C}
    (hsig : Signalled k s) (hr : Registered s) (hd : Drains outputDir fs s)
    (hs : step outputDir s (.command .cancelUnregister) = some t) :
    Kept outputDir s.chunks t ↔ s.caught := by
  constructor
  · intro hk
    by_contra hcaught
    obtain ⟨control, hc, rfl⟩ := Option.map_eq_some_iff.mp hs
    simp only [Control.command, guarded_eq_some] at hc
    obtain ⟨-, rfl⟩ := hc
    simp only [State.caught, not_or, not_and] at hcaught
    by_cases hp : s.pc = .read
    · -- the select is free to take another chunk first
      have hread := (hk _ (Machine.Reach.refl.tail (a := .read [0]) (by simp [Act.diskFault])
        (guarded_eq_some.mpr ⟨⟨hp, by simp⟩, rfl⟩))).1
      simp at hread
    · refine lost_never_ends ?_ (hk _ .refl).2
      refine ⟨rfl, hsig.registered, fun h => ?_, hcaught.2, hr.writer, fun h => ?_⟩
      · exact Bool.eq_false_iff.mpr (hcaught.1 (h.resolve_right hp))
      · exact hcaught.2 (hr.result h)
  · intro hcaught u hu
    have hs' : Caught s.chunks s := ⟨rfl, hcaught, fun hf => ?_, fun hp => ?_⟩
    · have hi := hu.invariant (I := fun t => Caught s.chunks t ∧ Drains outputDir fs t)
        ⟨caught_step hs' hs, hd.step (by simp [Act.diskFault]) hs⟩
        fun v a w hv ho hs => ⟨caught_step hv.1 hs, hv.2.step ho hs⟩
      exact ⟨hi.1.chunks, caught_ends hi.1 hi.2⟩
    · cases hfin : s.pc.finishing with
      | true => rfl
      | false => simp [hr.running hfin] at hf
    · rcases hcaught with hc | hf
      · simp [hc.1] at hp
      · exact hr.outcome hf hp

end Receiver

/-- A run through `cancel_transfer`: the flag is raised in `s₁`, while it is registered
and the loop has not ended, and taken out of the map between `s` and `t`. -/
structure CancelRun {σ α : Type*} (M : Machine σ α) (ok : σ → α → Prop) (start : σ)
    (signal unregister : α) (window : σ → Prop) (s₁ s t : σ) : Prop where
  before : M.Reach ok start s₁
  window : window s₁
  between : ∃ s₂, M.step s₁ signal = some s₂ ∧ M.Reach ok s₂ s
  unregister : M.step s unregister = some t

abbrev Sender.CancelRun (C : Primitives) (disk : Disk) (s₁ s t : Sender.State C) : Prop :=
  Alpn.CancelRun (Sender.machine disk) anyStep {} (.command .cancelSignal)
    (.command .cancelUnregister) (fun s => s.pc.window) s₁ s t

abbrev Receiver.CancelRun (C : Primitives) (outputDir : Text) (fs : Files)
    (s₁ s t : Receiver.State C) : Prop :=
  Alpn.CancelRun (Receiver.machine outputDir) Receiver.diskWorks { files := fs }
    (.command .cancelSignal) (.command .cancelUnregister) (fun s => s.pc.window) s₁ s t

/-- Exactly the cancels whose flag the loop holds in front of a poll when the command
takes it out of the map are kept. From the signal to there the sender dequeues nothing
and the receiver takes at most one chunk. -/
theorem cancel_kept_iff (disk : Disk) (outputDir : Text) (fs : Files) :
    (∀ s₁ s t : Sender.State C, Sender.CancelRun C disk s₁ s t →
      s.dequeued = s₁.dequeued ∧ (Sender.Kept disk s.dequeued t ↔ s.caught)) ∧
    (∀ s₁ s t : Receiver.State C, Receiver.CancelRun C outputDir fs s₁ s t →
      s.chunks ≤ s₁.chunks + 1 ∧ (Receiver.Kept outputDir s.chunks t ↔ s.caught)) := by
  constructor
  · intro s₁ s t h
    obtain ⟨s₂, hsig, hbet⟩ := h.between
    have hreg : ∀ u, (Sender.machine disk).Reach anyStep ({} : Sender.State C) u →
        Sender.Registered u := fun u hu =>
      hu.invariant Sender.registered_start fun _ _ _ hr _ hs => Sender.registered_step hr hs
    have hs : Sender.Signalled s₁.dequeued s :=
      hbet.invariant (Sender.signalled_of_signal disk (hreg s₁ h.before) h.window hsig)
        fun _ _ _ hi _ hs => Sender.signalled_step hi hs
    have hr := hreg s ((h.before.tail (a := .command .cancelSignal) trivial hsig).trans hbet)
    obtain ⟨control, hc, -⟩ := Option.map_eq_some_iff.mp h.unregister
    exact ⟨(hs.dequeued (Control.not_done_of_unregister hc)).1,
      Sender.kept_iff_caught hs.registered hr h.unregister⟩
  · intro s₁ s t h
    obtain ⟨s₂, hsig, hbet⟩ := h.between
    have hinv : ∀ u, (Receiver.machine outputDir).Reach Receiver.diskWorks
        ({ files := fs } : Receiver.State C) u →
        Receiver.Registered u ∧ Receiver.Drains outputDir fs u := fun u hu =>
      hu.invariant (I := fun u => Receiver.Registered u ∧ Receiver.Drains outputDir fs u)
        ⟨Receiver.registered_start fs, Receiver.Drains.start outputDir fs⟩
        fun _ _ _ hi hok hs => ⟨Receiver.registered_step hi.1 hs, hi.2.step hok hs⟩
    have hs : Receiver.Signalled s₁.chunks s :=
      hbet.invariant (Receiver.signalled_of_signal outputDir (hinv s₁ h.before).1
        h.window hsig) fun _ _ _ hi _ hs => Receiver.signalled_step hi hs
    obtain ⟨hr, hd⟩ := hinv s
      ((h.before.tail (a := .command .cancelSignal) (by simp [Receiver.Act.diskFault]) hsig).trans
        hbet)
    obtain ⟨control, hc, -⟩ := Option.map_eq_some_iff.mp h.unregister
    refine ⟨?_, Receiver.kept_iff_caught hs hr hd h.unregister⟩
    have := (hs.chunks (Control.not_done_of_unregister hc)).1
    omega

/-- The flag is registered and no cancel has begun. -/
def sampleControl : Control := ⟨[{}], some 0, true, .idle⟩

/-- The last step of the cancel is to come. -/
def sampleCancelled : Control := ⟨[⟨false, true⟩], some 0, false, .deactivated⟩

/-- Both functions are cancelled at the check of their loops, with the flag in hand. -/
theorem cancel_kept_at_check :
    ∃ (s : Sender.State .plain) (r : Receiver.State .plain), s.caught ∧ r.caught ∧
      (∃ t : Sender.State .plain, Sender.Kept (Disk.ofFile [1, 2]) 0 t) ∧
      ∃ t : Receiver.State .plain, Receiver.Kept ['/', 'd'] 0 t := by
  let s : Sender.State .plain :=
    { pc := .checkFlag, control := sampleCancelled, reader := .hashPrefix, flag := some 0,
      opened := true }
  let r : Receiver.State .plain :=
    { files := noFiles, pc := .checkFlag, control := sampleCancelled, request := sampleRequest,
      path := samplePath, writer := .createFile, flag := some 0 }
  have hs : s.caught := .inl ⟨rfl, rfl⟩
  have hr : r.caught := .inl ⟨rfl, rfl⟩
  have kept := cancel_kept_iff (C := .plain) (Disk.ofFile [1, 2]) ['/', 'd'] noFiles
  have hsend : Sender.CancelRun .plain (Disk.ofFile [1, 2]) { s with control := sampleControl } s _ :=
    { before := Machine.reach_of_runUnder [.connect, .activate, .register, .writeRequest,
        .accepted 0, .getFlag] rfl
      window := rfl
      between := ⟨_, rfl, Machine.reach_of_runUnder [.command .cancelDeactivate] rfl⟩
      unregister := rfl }
  have hrecv : Receiver.CancelRun .plain ['/', 'd'] noFiles { r with control := sampleControl } r _ :=
    { before := Machine.reach_of_runUnder [.readRequest sampleRequest, .activate, .register,
        .answer true, .prepare, .respond, .getFlag] rfl
      window := rfl
      between := ⟨_, rfl, Machine.reach_of_runUnder [.command .cancelDeactivate] rfl⟩
      unregister := rfl }
  exact ⟨s, r, hs, hr, ⟨_, ((kept.1 _ _ _ hsend).2).mpr hs⟩, ⟨_, ((kept.2 _ _ _ hrecv).2).mpr hr⟩⟩

/-- A cancel while the sender waits for the response, and one while the user of the
receiver is asked, are both forgotten: the one function returns the hash of the whole
file, the other reports it complete. -/
theorem cancel_lost :
    (∃ s₁ s t u : Sender.State .plain, Sender.CancelRun .plain (Disk.ofFile [1, 2]) s₁ s t ∧
      (Sender.machine (Disk.ofFile [1, 2])).Reach anyStep t u ∧
      s₁.dequeued = 0 ∧ u.dequeued = 1 ∧ u.pc = .returned ∧ u.result = some (.ok [1, 2])) ∧
    ∃ s₁ s t u : Receiver.State .plain, Receiver.CancelRun .plain ['/', 'd'] noFiles s₁ s t ∧
      (Receiver.machine ['/', 'd']).Reach Receiver.diskWorks t u ∧
      s₁.chunks = 0 ∧ u.chunks = 1 ∧ u.pc = .returned ∧ u.result = some (.ok ()) ∧
      u.event = some (.complete samplePath [1, 2]) := by
  constructor
  · let s : Sender.State .plain := { pc := .awaitResponse, control := sampleCancelled, opened := true }
    have hs : Sender.CancelRun .plain (Disk.ofFile [1, 2]) { s with control := sampleControl } s _ :=
      { before := Machine.reach_of_runUnder [.connect, .activate, .register,
          .writeRequest] rfl
        window := rfl
        between := ⟨_, rfl, Machine.reach_of_runUnder [.command .cancelDeactivate] rfl⟩
        unregister := rfl }
    exact ⟨_, _, _, _, hs, Machine.reach_of_runUnder [.accepted 0, .seek, .read [1, 2],
      .sendChunk, .endOfFile, .getFlag, .proceed, .dequeue [1, 2], .writeRest, .getFlag, .proceed,
      .endOfData, .finish, .join, .clearFlag, .clearActive] rfl, rfl, rfl, rfl, rfl⟩
  · let s : Receiver.State .plain :=
      { files := noFiles, pc := .awaitAnswer, control := sampleCancelled, request := sampleRequest }
    have hs : Receiver.CancelRun .plain ['/', 'd'] noFiles { s with control := sampleControl } s _ :=
      { before := Machine.reach_of_runUnder [.readRequest sampleRequest, .activate,
          .register] rfl
        window := rfl
        between := ⟨_, rfl, Machine.reach_of_runUnder [.command .cancelDeactivate] rfl⟩
        unregister := rfl }
    exact ⟨_, _, _, _, hs, Machine.reach_of_runUnder [.answer true, .prepare, .respond,
      .createFile, .getFlag, .proceed, .read [1, 2], .forward, .writeChunk [1, 2], .getFlag,
      .proceed, .endOfStream, .close, .flush, .join, .clearFlag, .complete, .clearActive] rfl,
      rfl, rfl, rfl, rfl, rfl⟩

end P2PTransfer.Alpn
