import P2PTransfer.Lib.Outbox
import P2PTransfer.Receive.Loss

/-!
# The final event of an accepted transfer

Both receivers report to one bounded channel. A LAN receiver waits for room and reports
completions and cancellations only. A QUIC receiver also reports errors, but it tries its
final event and does not see that a full channel loses it.

## Main definitions

- `Reported` — one final event, of the right kind
- `Lan.post`, `Alpn.post` — the final events of the receivers
- `Lan.silent`, `Alpn.silent` — the exits without an event
-/

namespace P2PTransfer

open Transition

variable {C : Primitives}

namespace Alpn

def TransferEvent.isComplete : TransferEvent C → Bool
  | .complete _ _ => true
  | _ => false

@[simp] theorem TransferEvent.isComplete_complete (p : Path) (d : C.Digest) :
    (TransferEvent.complete p d).isComplete = true := rfl

@[simp] theorem TransferEvent.isComplete_cancelled :
    (TransferEvent.cancelled : TransferEvent C).isComplete = false := rfl

@[simp] theorem TransferEvent.isComplete_error (message : Text) :
    (TransferEvent.error message : TransferEvent C).isComplete = false := rfl

@[simp] theorem RecvError.event_isComplete (e : RecvError) : (e.event C).isComplete = false := by
  unfold event
  split <;> rfl

end Alpn

/-- There is one final event, and it is a completion exactly if the function succeeds. -/
def Reported (events : List (Alpn.TransferEvent C)) (success : Prop) : Prop :=
  ∃ e, events = [e] ∧ (e.isComplete ↔ success)

theorem reported_singleton {e : Alpn.TransferEvent C} {success : Prop}
    (h : e.isComplete ↔ success) : Reported [e] success :=
  ⟨e, rfl, h⟩

theorem not_reported_nil (success : Prop) : ¬ Reported ([] : List (Alpn.TransferEvent C)) success := by
  rintro ⟨e, he, -⟩
  cases he

namespace Lan

def post : AdmitPhase C (Receiver.State C) → AdmitAct C (Receiver.Act C) →
    Option (Post (Alpn.TransferEvent C))
  | .running _, .body .sendCancel => some (.wait .cancelled)
  | .running s, .body .sendComplete => some (.wait (.complete s.path s.metadata.checksum))
  | _, _ => none

/-- The exits that report nothing. -/
def silent : AdmitAct C (Receiver.Act C) → Bool
  | .ioError _ => true
  | .body (.drained e) => !isCancel e.text
  | .body .joinError | .body (.verifyError _) | .body (.completeError _)
  | .body .sendMismatch => true
  | _ => false

def Returned : AdmitPhase C (Receiver.State C) → Prop
  | .failed _ => True
  | .running s => s.pc = .returned
  | _ => False

def Succeeded : AdmitPhase C (Receiver.State C) → Prop
  | .running s => s.result = some (.ok ())
  | _ => False

namespace Receiver

/-- What the receiver has reported at each point of a run without silent exits. -/
structure Accounts (events : List (Alpn.TransferEvent C)) (s : State C) : Prop where
  pending : s.pc ≠ .drain → s.pc ≠ .returned → events = []
  drain : s.pc = .drain → ∀ e, s.loop = .failed e → isCancel e.text → events = [.cancelled]
  returned : s.pc = .returned → Reported events (s.result = some (.ok ()))

theorem Accounts.start (pauses : Nat) (fs : Files) (outputDir : Text) (key : C.Key)
    (m : TransferMetadata C) : Accounts [] (State.start pauses fs outputDir key m) := by
  constructor <;> simp [State.start]

theorem Accounts.step {events : List (Alpn.TransferEvent C)} {s t : State C} {a : Act C}
    (h : Accounts events s) (ha : silent (.body a : AdmitAct C (Act C)) = false)
    (hs : step s a = some t) :
    Accounts (events ++ ((post (.running s) (.body a)).map Post.event).toList) t := by
  obtain ⟨h1, h2, h3⟩ := h
  cases a with
  | joinError => cases ha
  | verifyError detail => cases ha
  | completeError detail => cases ha
  | sendMismatch => cases ha
  | cancel =>
    obtain rfl := Option.some.inj hs
    simp only [post, Option.map_none, Option.toList_none, List.append_nil]
    exact ⟨h1, h2, h3⟩
  | close =>
    simp only [Receiver.step, guarded_eq_some] at hs
    obtain ⟨g, rfl⟩ := hs
    have hnil := h1 (by simp [g]) (by simp [g])
    simp only [post, Option.map_none, Option.toList_none, List.append_nil]
    refine ⟨fun _ _ => hnil, fun hp e he hc => ?_, fun hp => ?_⟩
    · have he : s.loop = .failed e := he
      simp [he, LoopResult.next, hc] at hp
    · exfalso
      revert hp
      show s.loop.next ≠ .returned
      unfold LoopResult.next
      split
      · split <;> simp
      · simp
  | sendCancel =>
    simp only [Receiver.step, guarded_eq_some] at hs
    obtain ⟨g, rfl⟩ := hs
    have hnil := h1 (by simp [g]) (by simp [g])
    exact ⟨by simp, fun _ _ _ _ => by simp [hnil, post, Post.event], by simp⟩
  | drained e =>
    simp only [Receiver.step, guarded_eq_some] at hs
    obtain ⟨⟨g, -, hl⟩, rfl⟩ := hs
    have hc : isCancel e.text = true := by simpa [silent] using ha
    obtain rfl := h2 g e hl hc
    exact ⟨by simp, by simp, fun _ => reported_singleton (by simp)⟩
  | sendComplete =>
    simp only [Receiver.step, guarded_eq_some] at hs
    obtain ⟨g, rfl⟩ := hs
    obtain rfl := h1 (by simp [g]) (by simp [g])
    exact ⟨by simp, by simp, fun _ => reported_singleton (by simp)⟩
  | verify =>
    simp only [Receiver.step, guarded_eq_some] at hs
    obtain ⟨g, rfl⟩ := hs
    have hnil := h1 (by simp [g]) (by simp [g])
    simp only [post, Option.map_none, Option.toList_none, List.append_nil]
    refine ⟨fun _ _ => hnil, fun hp => ?_, fun hp => ?_⟩
    · dsimp only at hp
      split at hp <;> simp at hp
    · dsimp only at hp
      split at hp <;> simp at hp
  | _ =>
    simp only [Receiver.step, guarded_eq_some] at hs
    obtain ⟨g, rfl⟩ := hs
    simp only [post, Option.map_none, Option.toList_none, List.append_nil]
    refine ⟨?_, ?_, ?_⟩ <;> first
      | assumption
      | simp_all

end Receiver

theorem reported {fs : Files} {outputDir : Text} {secret : C.Secret} {pauses : Nat} {key : C.Key}
    {m : TransferMetadata C} {capacity fill : Nat}
    {r : Reporting (AdmitPhase C (Receiver.State C)) (Alpn.TransferEvent C)}
    (h : (((compatAdmission C pauses secret fs outputDir).party (receiver C)).reporting capacity
      post).Reach (Machine.OnInner fun _ b => silent b = false) ⟨.replying key m, fill, []⟩ r)
    (hr : Returned r.inner) : Reported r.placed (Succeeded r.inner) := by
  have hinv := Machine.reporting_invariant
    (I := fun p events => match p with
      | .replying _ _ => events = []
      | .running s => Receiver.Accounts events s
      | _ => False) h
    (fun r b _ => by
      unfold Machine.Roomy
      split
      · rename_i e he
        unfold post at he
        split at he <;> simp at he
      · trivial)
    rfl fun r b p hb hI hs => by
      rcases r with ⟨q, fill, placed⟩
      cases q with
      | replying key' m' =>
        have hI : placed = [] := hI
        subst hI
        cases b with
        | reply =>
          obtain rfl := Option.some.inj hs
          exact Receiver.Accounts.start ..
        | ioError detail => cases hb
        | _ => cases hs
      | running s =>
        cases b with
        | body a =>
          obtain ⟨t, ht, rfl⟩ := Option.map_eq_some_iff.mp hs
          exact Receiver.Accounts.step hI hb ht
        | _ => cases hs
      | _ => cases hI
  rcases r with ⟨q, fill, placed⟩
  cases q with
  | running s => exact Receiver.Accounts.returned hinv hr
  | replying key m => cases hr
  | _ => cases hinv

end Lan

namespace Alpn

def post (s : Receiver.State C) : Receiver.Act → Option (Post (TransferEvent C))
  | .createDirError detail =>
    some (.attempt (.error ("Cannot create output directory: ".toList ++ detail)))
  | .writeError detail => some (.wait (.error ("Disk write failed: ".toList ++ detail)))
  | .complete => some (.attempt (.complete s.path (C.blake3 s.hashed)))
  | .settle e => some (.attempt (e.event C))
  | _ => none

/-- The exits that report nothing. A failed write has already been reported. -/
def silent : Receiver.Act → Bool
  | .respondError _ => true
  | .joinError (.diskWrite _) => false
  | .joinError _ => true
  | _ => false

namespace Receiver

/-- After the answer of the user. -/
def Pc.answered : Pc → Bool
  | .readRequest | .activate | .register | .awaitAnswer | .rejectActive | .rejectFlag
  | .rejectRespond => false
  | _ => true

/-- What the receiver has reported at each point of a run without silent exits. -/
structure Accounts (events : List (TransferEvent C)) (s : State C) : Prop where
  answered : s.pc.answered
  pending : s.pc ≠ .clearActive → s.pc ≠ .returned → (∀ d, s.writer ≠ .failed (.diskWrite d)) →
    events = []
  broken : ∀ d, s.writer = .failed (.diskWrite d) →
    events = [.error ("Disk write failed: ".toList ++ d)]
  ended : s.pc = .clearActive ∨ s.pc = .returned → Reported events (s.result = some (.ok ()))
  stopped : s.pc = .returned → s.writer.ended ∨ s.writer = .idle

theorem Accounts.start {outputDir : Text} {fs : Files} {s : State C} (h : s.pc = .prepare)
    (hp : Phases outputDir fs s) : Accounts [] s := by
  have hw := (hp.deciding (by simp [h, Pc.deciding])).1
  constructor <;> simp [h, hw, Pc.answered]

theorem Accounts.step {outputDir : Text} {fs : Files} {events : List (TransferEvent C)}
    {s t : State C} {a : Act} (h : Accounts events s) (hp : Phases outputDir fs s)
    (ha : silent a = false) (hs : Receiver.step outputDir s a = some t) :
    Accounts (events ++ ((post s a).map Post.event).toList) t := by
  have hsettled := hp.settled
  have hdeciding := hp.deciding
  obtain ⟨h1, h2, h3, h4, h5⟩ := h
  -- a writer that has work to do belongs to a function that has not ended
  have hlive : s.writer.ended = false → s.writer ≠ .idle → s.pc ≠ .clearActive ∧ s.pc ≠ .returned := by
    intro hw hidle
    refine ⟨fun hpc => ?_, fun hpc => ?_⟩
    · simp [hsettled (.inr (.inr hpc)), WriterPc.ended] at hw
    · rcases h5 hpc with he | he
      · simp [he] at hw
      · exact hidle he
  cases a with
  | respondError detail => cases ha
  | command c =>
    obtain ⟨control, -, rfl⟩ := Option.map_eq_some_iff.mp hs
    simp only [post, Option.map_none, Option.toList_none, List.append_nil]
    exact ⟨h1, h2, h3, h4, h5⟩
  | createDirError detail =>
    simp only [Receiver.step, guarded_eq_some] at hs
    obtain ⟨g, rfl⟩ := hs
    have hw := (hdeciding (by simp [g, Pc.deciding])).1
    obtain rfl := h2 (by simp [g]) (by simp [g]) (by simp [hw])
    exact ⟨rfl, by simp, by simp [hw],
      fun _ => reported_singleton (by simp), fun _ => .inr hw⟩
  | writeError detail =>
    simp only [Receiver.step, guarded_eq_some] at hs
    obtain ⟨⟨g, -⟩, rfl⟩ := hs
    obtain ⟨hc, hr⟩ := hlive (by simp [g, WriterPc.ended]) (by simp [g])
    have hnil := h2 hc hr (by simp [g])
    refine ⟨h1, by simp, ?_, fun hpc => (hpc.elim hc hr).elim, fun _ => .inl rfl⟩
    intro d hd
    obtain rfl : detail = d := by simpa using hd
    rw [hnil]
    rfl
  | joinError e =>
    simp only [Receiver.step, guarded_eq_some] at hs
    obtain ⟨⟨g, hw⟩, rfl⟩ := hs
    cases e with
    | diskWrite d =>
      obtain rfl := h3 d hw
      exact ⟨rfl, by simp, by simpa [post] using h3,
        fun _ => reported_singleton (by simp),
        fun _ => .inl (by simp [hw, WriterPc.ended])⟩
    | _ => cases ha
  | complete =>
    simp only [Receiver.step, guarded_eq_some] at hs
    obtain ⟨⟨g, -⟩, rfl⟩ := hs
    have hw := hsettled (.inr (.inl g))
    obtain rfl := h2 (by simp [g]) (by simp [g]) (by simp [hw])
    exact ⟨rfl, by simp, by simp [hw],
      fun _ => reported_singleton (by simp), by simp⟩
  | settle e =>
    simp only [Receiver.step, guarded_eq_some] at hs
    obtain ⟨⟨g, -⟩, rfl⟩ := hs
    have hw := hsettled (.inr (.inl g))
    obtain rfl := h2 (by simp [g]) (by simp [g]) (by simp [hw])
    exact ⟨rfl, by simp, by simp [hw],
      fun _ => reported_singleton (by simp), by simp⟩
  | clearActive =>
    simp only [Receiver.step, guarded_eq_some] at hs
    obtain ⟨g, rfl⟩ := hs
    have hw := hsettled (.inr (.inr g))
    simp only [post, Option.map_none, Option.toList_none, List.append_nil]
    exact ⟨rfl, by simp, h3, fun _ => h4 (.inl g), fun _ => .inl (by simp [hw, WriterPc.ended])⟩
  | respond =>
    simp only [Receiver.step, guarded_eq_some] at hs
    obtain ⟨g, rfl⟩ := hs
    have hw := (hdeciding (by simp [g, Pc.deciding])).1
    have hnil := h2 (by simp [g]) (by simp [g]) (by simp [hw])
    simp only [post, Option.map_none, Option.toList_none, List.append_nil]
    refine ⟨rfl, fun _ _ _ => hnil, fun d hd => ?_, by simp, by simp⟩
    dsimp only at hd
    split at hd <;> simp at hd
  | diskError detail =>
    simp only [Receiver.step, guarded_eq_some] at hs
    obtain ⟨g, rfl⟩ := hs
    have hw : s.writer.ended = false ∧ s.writer ≠ .idle ∧ ∀ d, s.writer ≠ .failed (.diskWrite d) := by
      rcases g with g | g | g <;> simp [g, WriterPc.ended]
    obtain ⟨hc, hr⟩ := hlive hw.1 hw.2.1
    simp only [post, Option.map_none, Option.toList_none, List.append_nil]
    exact ⟨h1, fun _ _ _ => h2 hc hr hw.2.2, by simp, h4, fun _ => .inl rfl⟩
  | _ =>
    simp only [Receiver.step, guarded_eq_some] at hs
    obtain ⟨g, rfl⟩ := hs
    simp only [post, Option.map_none, Option.toList_none, List.append_nil]
    refine ⟨?_, ?_, ?_, ?_, ?_⟩ <;> first
      | assumption
      | grind -ring -linarith [Pc.answered, WriterPc.ended]

end Receiver

theorem reported {outputDir : Text} {fs : Files} {capacity fill : Nat} {s : Receiver.State C}
    {r : Reporting (Receiver.State C) (TransferEvent C)}
    (hs : (receiver C outputDir).Reach (fun _ _ => True) { files := fs } s)
    (hprepare : s.pc = .prepare)
    (h : ((receiver C outputDir).reporting capacity post).Reach
      (Machine.OnInner fun r b => silent b = false ∧ Machine.Roomy capacity post r b)
      ⟨s, fill, []⟩ r)
    (hr : r.inner.pc = .returned) : Reported r.placed (r.inner.result = some (.ok ())) := by
  have hphases := hs.invariant (I := Receiver.Phases outputDir fs)
    (Receiver.Phases.start outputDir fs) fun _ _ _ hI _ hs => hI.step hs
  have hinv := Machine.reporting_invariant
    (I := fun s events => Receiver.Phases outputDir fs s ∧ Receiver.Accounts events s) h
    (fun _ _ hb => hb.2) ⟨hphases, .start hprepare hphases⟩
    fun r b t hb hI ht => ⟨hI.1.step ht, hI.2.step hI.1 hb.1 ht⟩
  exact hinv.2.ended (.inr hr)

end Alpn

/-- **Final events.** In every run that leaves neither function through a silent exit,
and in which no final event is tried on a full channel, the function reports exactly once
by the time it returns, and as a completion exactly if it succeeds. -/
theorem one_final_event (C : Primitives) (fs : Files) (outputDir : Text) (capacity fill : Nat) :
    (∀ (secret : C.Secret) pauses key (m : TransferMetadata C) r,
      (((Lan.compatAdmission C pauses secret fs outputDir).party (Lan.receiver C)).reporting capacity
        Lan.post).Reach (Machine.OnInner fun _ b => Lan.silent b = false)
        ⟨.replying key m, fill, []⟩ r →
      Lan.Returned r.inner → Reported r.placed (Lan.Succeeded r.inner)) ∧
    ∀ (s : Alpn.Receiver.State C) r,
      (Alpn.receiver C outputDir).Reach (fun _ _ => True) { files := fs } s → s.pc = .prepare →
      ((Alpn.receiver C outputDir).reporting capacity Alpn.post).Reach
        (Machine.OnInner fun r b =>
          Alpn.silent b = false ∧ Machine.Roomy capacity Alpn.post r b) ⟨s, fill, []⟩ r →
      r.inner.pc = .returned → Reported r.placed (r.inner.result = some (.ok ())) :=
  ⟨fun _ _ _ _ _ h hr => Lan.reported h hr, fun _ _ hs hp h hr => Alpn.reported hs hp h hr⟩

/-- A QUIC receiver whose user has accepted the one byte that it is offered. -/
def alpnAccepted : Alpn.Receiver.State .plain where
  files := noFiles
  pc := .prepare
  control := (({} : Control).activate).register
  request := ⟨[], Lan.sampleName, 1, false⟩

theorem alpnAccepted_reach : (Alpn.receiver .plain Lan.sampleDir).Reach (fun _ _ => True)
    { files := noFiles } alpnAccepted := by
  have hrun : (Alpn.receiver .plain Lan.sampleDir).run { files := noFiles }
      [.readRequest ⟨[], Lan.sampleName, 1, false⟩, .activate, .register, .answer true] =
        some alpnAccepted := rfl
  exact Machine.reach_of_run (fun _ _ _ => trivial) hrun

/-- An empty file is received, and the last step waits for room. -/
def lanEmpty : List (ReportAct (AdmitAct .plain (Lan.Receiver.Act .plain))) :=
  [.inner .reply, .inner (.body .openFile), .inner (.body .proceed),
    .inner (.body (.complete ⟨tagComplete, .text []⟩)), .inner (.body .close),
    .inner (.body .flush), .inner (.body .join), .inner (.body .verify), .taken,
    .inner (.body .sendComplete)]

def lanOffer : TransferMetadata .plain :=
  Lan.directMetadata .plain [] Lan.sampleName [] [0, 0, 0, 0] false

/-- The one byte is received. -/
def alpnByte : List (ReportAct Alpn.Receiver.Act) :=
  [.prepare, .respond, .createFile, .getFlag, .proceed, .read [1], .forward, .writeChunk [1],
    .getFlag, .proceed, .endOfStream, .close, .flush, .join, .clearFlag, .complete,
    .clearActive].map .inner

/-- Both receivers report a completion. -/
theorem completion_reported :
    (∃ r : Reporting (AdmitPhase .plain (Lan.Receiver.State .plain)) (Alpn.TransferEvent .plain),
      Reported r.placed (Lan.Succeeded r.inner) ∧ Lan.Succeeded r.inner) ∧
    ∃ r : Reporting (Alpn.Receiver.State .plain) (Alpn.TransferEvent .plain),
      Reported r.placed (r.inner.result = some (.ok ())) ∧ r.inner.result = some (.ok ()) := by
  constructor
  · obtain ⟨r, hr, he⟩ := Option.map_eq_some_iff.mp
      (show ((((Lan.compatAdmission .plain 0 Primitives.plainSecret noFiles Lan.sampleDir).party
          (Lan.receiver .plain)).reporting 1 Lan.post).runUnder
          (Machine.OnInner fun _ b => Lan.silent b = false) ⟨.replying () lanOffer, 1, []⟩
          lanEmpty).map (fun r => r.inner.loop.map fun s => (s.pc, s.result)) =
            some (some (.returned, some (.ok ()))) from rfl)
    rcases r with ⟨p, fill, placed⟩
    obtain ⟨s, hloop, hend⟩ := Option.map_eq_some_iff.mp he
    obtain rfl := AdmitPhase.loop_eq_some.mp hloop
    simp only [Prod.mk.injEq] at hend
    exact ⟨_, (one_final_event .plain noFiles Lan.sampleDir 1 1).1 Primitives.plainSecret 0 ()
      lanOffer _ (Machine.reach_of_runUnder _ hr) hend.1, hend.2⟩
  · obtain ⟨r, hr, he⟩ := Option.map_eq_some_iff.mp
      (show (((Alpn.receiver .plain Lan.sampleDir).reporting 1 Alpn.post).runUnder
        (Machine.OnInner fun r b => Alpn.silent b = false ∧ Machine.Roomy 1 Alpn.post r b)
        ⟨alpnAccepted, 0, []⟩ alpnByte).map (fun r => (r.inner.pc, r.inner.result)) =
          some (.returned, some (.ok ())) from rfl)
    simp only [Prod.mk.injEq] at he
    exact ⟨r, (one_final_event .plain noFiles Lan.sampleDir 1 0).2 alpnAccepted r
      alpnAccepted_reach rfl (Machine.reach_of_runUnder _ hr) he.1, he.2⟩

/-- A LAN receiver whose connection breaks reports nothing, and a QUIC receiver that
succeeds loses its completion to a full channel. -/
theorem final_event_missing :
    (∃ r, (((Lan.compatAdmission .plain 0 Primitives.plainSecret partialOut
        Lan.sampleDir).party (Lan.receiver .plain)).reporting 1 Lan.post).Reach (fun _ _ => True)
        ⟨.replying () twoBytes, 0, []⟩ r ∧
      Lan.Returned r.inner ∧ ¬ Reported r.placed (Lan.Succeeded r.inner)) ∧
    ∃ r, ((Alpn.receiver .plain Lan.sampleDir).reporting 1 Alpn.post).Reach (fun _ _ => True)
        ⟨alpnAccepted, 1, []⟩ r ∧
      r.inner.pc = .returned ∧ r.inner.result = some (.ok ()) ∧
      ¬ Reported r.placed (r.inner.result = some (.ok ())) := by
  constructor
  · obtain ⟨r, hr, he⟩ := Option.map_eq_some_iff.mp
      (show ((((Lan.compatAdmission .plain 0 Primitives.plainSecret partialOut Lan.sampleDir).party
          (Lan.receiver .plain)).reporting 1 Lan.post).run ⟨.replying () twoBytes, 0, []⟩
          (lanBroken.map .inner)).map (fun r => (r.inner.loop.map fun s => s.pc, r.placed)) =
            some (some .returned, []) from rfl)
    rcases r with ⟨p, fill, placed⟩
    simp only [Prod.mk.injEq] at he
    obtain ⟨hend, rfl⟩ := he
    obtain ⟨s, hloop, hpc⟩ := Option.map_eq_some_iff.mp hend
    obtain rfl := AdmitPhase.loop_eq_some.mp hloop
    exact ⟨_, Machine.reach_of_run (fun _ _ _ => trivial) hr, hpc, not_reported_nil _⟩
  · obtain ⟨r, hr, he⟩ := Option.map_eq_some_iff.mp
      (show (((Alpn.receiver .plain Lan.sampleDir).reporting 1 Alpn.post).run
        ⟨alpnAccepted, 1, []⟩ alpnByte).map (fun r => (r.inner.pc, r.inner.result, r.placed)) =
          some (.returned, some (.ok ()), []) from rfl)
    simp only [Prod.mk.injEq] at he
    refine ⟨r, Machine.reach_of_run (fun _ _ _ => trivial) hr, he.1, he.2.1, ?_⟩
    rw [he.2.2]
    exact not_reported_nil _

end P2PTransfer
