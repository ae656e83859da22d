import P2PTransfer.Receive.Size

/-!
# A connection that breaks

What becomes of the file that was at the output path when the connection of an accepted
transfer fails. Until the reply has been sent no receiver touches it. Afterwards both
remove the file they write to, whatever it held before, and only a new name that QUIC
gives to a restarted transfer leaves the old file alone.

## Main definitions

- `Loss` — where the connection fails
- `Keeps` — what is at a path begins with the old content
-/

namespace P2PTransfer

open Transition

/-- The connection fails while the reply is sent, or while the stream is read. -/
inductive Loss where
  | reply
  | stream
deriving DecidableEq

/-- A file is there, and it begins with `existing`. -/
def Keeps (existing : Bytes) (fs : Files) (path : Path) : Prop :=
  ∃ content, fs path = some content ∧ existing <+: content

theorem keeps_of_eq {existing : Bytes} {fs : Files} {path : Path} (h : fs path = some existing) :
    Keeps existing fs path :=
  ⟨existing, h, List.prefix_rfl⟩

theorem not_keeps_of_none {existing : Bytes} {fs : Files} {path : Path} (h : fs path = none) :
    ¬ Keeps existing fs path := by
  rintro ⟨content, hc, -⟩
  simp [h] at hc

variable {C : Primitives}

namespace Lan

/-- The files when the function has come to a phase. -/
def filesAt (fs : Files) : AdmitPhase C (Receiver.State C) → Files
  | .running s => s.files
  | _ => fs

def LostAt : Loss → AdmitPhase C (Receiver.State C) → Prop
  | .reply, p => ∃ detail, p = .failed (.io detail)
  | .stream, p => ∃ s detail, p = .running s ∧ s.pc = .returned ∧
      s.loop = .failed (.network detail)

namespace Receiver

/-- A loop that failed ends with the removal of the file. -/
structure Removes (s : State C) : Prop where
  joining : s.pc = .join ∨ s.pc = .verify ∨ s.pc = .sendComplete ∨ s.pc = .sendMismatch →
    ∀ e, s.loop ≠ .failed e
  returned : s.pc = .returned → ∀ e, s.loop = .failed e →
    s.writer.ended ∧ s.files s.path = none

theorem Removes.start (pauses : Nat) (fs : Files) (outputDir : Text) (key : C.Key)
    (m : TransferMetadata C) : Removes (State.start pauses fs outputDir key m) := by
  constructor <;> simp [State.start]

theorem Removes.step {s t : State C} {a : Act C} (h : Removes s) (hs : step s a = some t) :
    Removes t := by
  obtain ⟨h1, h2⟩ := h
  -- once the function has returned from a failed loop, its writer does nothing more
  have hended : ∀ w, s.writer = w → w.ended = false → s.pc = .returned →
      ∀ e, s.loop ≠ .failed e := by
    rintro w rfl hw hpc e he
    simp [(h2 hpc e he).1] at hw
  cases a with
  | cancel =>
    obtain rfl := Option.some.inj hs
    exact ⟨h1, h2⟩
  | close =>
    simp only [Receiver.step, guarded_eq_some] at hs
    obtain ⟨g, rfl⟩ := hs
    cases hl : s.loop with
    | failed e =>
      have hnext : s.loop.next = .sendCancel ∨ s.loop.next = .drain := by
        rw [hl]
        unfold LoopResult.next
        dsimp only
        split <;> simp
      rw [hl] at hnext
      refine ⟨fun hpc => ?_, fun hpc => ?_⟩
      · rcases hnext with hn | hn <;> simp [hn] at hpc
      · rcases hnext with hn | hn <;> simp [hn] at hpc
    | _ => exact ⟨fun _ e => by simp, fun _ e he => by simp at he⟩
  | verify =>
    simp only [Receiver.step, guarded_eq_some] at hs
    obtain ⟨g, rfl⟩ := hs
    refine ⟨fun _ => h1 (.inr (.inl g)), fun hpc => ?_⟩
    split at hpc <;> simp at hpc
  | openFile =>
    simp only [Receiver.step, guarded_eq_some] at hs
    obtain ⟨g, rfl⟩ := hs
    exact ⟨h1, fun hpc e he => absurd he (hended _ g rfl hpc e)⟩
  | writeBlock index data plain =>
    simp only [Receiver.step, guarded_eq_some] at hs
    obtain ⟨⟨g, -⟩, rfl⟩ := hs
    exact ⟨h1, fun hpc e he => absurd he (hended _ g rfl hpc e)⟩
  | decryptError index data =>
    simp only [Receiver.step, guarded_eq_some] at hs
    obtain ⟨⟨g, -⟩, rfl⟩ := hs
    exact ⟨h1, fun hpc e he => absurd he (hended _ g rfl hpc e)⟩
  | flush =>
    simp only [Receiver.step, guarded_eq_some] at hs
    obtain ⟨⟨g, -⟩, rfl⟩ := hs
    exact ⟨h1, fun hpc e he => absurd he (hended _ g rfl hpc e)⟩
  | diskError =>
    simp only [Receiver.step, guarded_eq_some] at hs
    obtain ⟨g, rfl⟩ := hs
    exact ⟨h1, fun hpc e he => absurd he (hended _ rfl (by simpa using g) hpc e)⟩
  | drained e =>
    simp only [Receiver.step, guarded_eq_some] at hs
    obtain ⟨⟨-, hw, -⟩, rfl⟩ := hs
    exact ⟨by simp, fun _ _ _ => ⟨hw, by simp⟩⟩
  | _ =>
    simp only [Receiver.step, guarded_eq_some] at hs
    obtain ⟨g, rfl⟩ := hs
    refine ⟨?_, ?_⟩ <;> first
      | assumption
      | grind -ring -linarith

end Receiver

theorem keeps_iff (fs : Files) (outputDir : Text) {secret : C.Secret} {pauses : Nat} {key : C.Key}
    {m : TransferMetadata C} {existing : Bytes} {l : Loss}
    {p : AdmitPhase C (Receiver.State C)} (hex : fs (outputPath outputDir m.fileName) = some existing)
    (h : ((compatAdmission C pauses secret fs outputDir).party (receiver C)).Reach
      (fun _ _ => True) (.replying key m) p) (hl : LostAt l p) :
    Keeps existing (filesAt fs p) (outputPath outputDir m.fileName) ↔ l = .reply := by
  cases l with
  | reply =>
    obtain ⟨detail, rfl⟩ := hl
    simp [filesAt, keeps_of_eq hex]
  | stream =>
    obtain ⟨s, detail, rfl, hpc, hloop⟩ := hl
    have hr := Admission.reach_replied (fun _ _ => True) (fun _ _ _ => trivial) h
    have hinv := hr.invariant
      (I := fun r => Receiver.Removes r ∧ r.path = outputPath outputDir m.fileName)
      ⟨Receiver.Removes.start pauses fs outputDir key m, rfl⟩ fun _ _ _ hI _ hs =>
        ⟨hI.1.step hs, (Receiver.step_const hs).2.2.1.trans hI.2⟩
    have hnone := (hinv.1.returned hpc _ hloop).2
    rw [hinv.2] at hnone
    simp [filesAt, not_keeps_of_none hnone]

end Lan

namespace Alpn

def LostAt : Loss → Receiver.State C → Prop
  | .reply, s => s.pc = .returned ∧ ∃ detail, s.result = some (.error (.respond detail))
  | .stream, s => s.pc = .returned ∧ ∃ detail, s.result = some (.error (.network detail))

namespace Receiver

/-- Which files the function has touched. -/
structure Touches (fs : Files) (s : State C) : Prop where
  idle : s.writer = .idle → s.files = fs
  others : s.writer ≠ .idle → ∀ q, q ≠ s.path → s.files q = fs q
  writer : ∀ e, s.writer = .failed e → ∀ d, e ≠ .network d ∧ e ≠ .respond d
  running : ∀ d, s.recvResult ≠ .failed (.respond d)
  network : ∀ d, s.result = some (.error (.network d)) →
    s.writer = .done ∧ s.files s.path = none
  respond : ∀ d, s.result = some (.error (.respond d)) → s.pc = .returned ∧ s.writer = .idle

theorem Touches.start (fs : Files) : Touches fs ({ files := fs } : State C) := by
  constructor <;> simp

theorem Touches.step {outputDir : Text} {fs : Files} {s t : State C} {a : Act}
    (h : Touches fs s) (hp : Phases outputDir fs s) (hs : Receiver.step outputDir s a = some t) :
    Touches fs t := by
  have hsettled := hp.settled
  have hdeciding := hp.deciding
  obtain ⟨h1, h2, h3, h4, h5, h6⟩ := h
  have hset : ∀ c : Option Bytes, (∀ q, q ≠ s.path → s.files q = fs q) →
      ∀ q, q ≠ s.path → (s.files.set s.path c) q = fs q := fun c hq q hne => by
    rw [Files.set, Function.update_of_ne hne, hq q hne]
  cases a with
  | command c =>
    obtain ⟨control, -, rfl⟩ := Option.map_eq_some_iff.mp hs
    exact ⟨h1, h2, h3, h4, h5, h6⟩
  | prepare =>
    simp only [Receiver.step, guarded_eq_some] at hs
    obtain ⟨g, rfl⟩ := hs
    have hw := (hdeciding (by simp [g, Pc.deciding])).1
    refine ⟨h1, fun hne => absurd hw hne, h3, h4, fun d hd => ?_, fun d hd => ?_⟩
    · have := (h5 d hd).1
      simp [hw] at this
    · have := (h6 d hd).1
      simp [g] at this
  | respond =>
    simp only [Receiver.step, guarded_eq_some] at hs
    obtain ⟨g, rfl⟩ := hs
    have hw := (hdeciding (by simp [g, Pc.deciding])).1
    have hne : (if s.resuming = true then WriterPc.hashPrefix else WriterPc.createFile) ≠ .idle := by
      split <;> simp
    refine ⟨fun hidle => absurd hidle hne, fun _ q _ => congrFun (h1 hw) q, fun e he => ?_, h4,
      fun d hd => ?_, fun d hd => ?_⟩
    · dsimp only at he
      split at he <;> simp at he
    · have := (h5 d hd).1
      simp [hw] at this
    · have := (h6 d hd).1
      simp [g] at this
  | createFile =>
    simp only [Receiver.step, guarded_eq_some] at hs
    obtain ⟨g, rfl⟩ := hs
    exact ⟨by simp, fun _ => hset _ (h2 (by simp [g])), by simp, h4,
      fun d hd => by simpa [g] using (h5 d hd).1, fun d hd => by simpa [g] using (h6 d hd).2⟩
  | writeChunk chunk =>
    simp only [Receiver.step, guarded_eq_some] at hs
    obtain ⟨⟨g, -⟩, rfl⟩ := hs
    exact ⟨by simp [g], fun _ => hset _ (h2 (by simp [g])), by simp [g], h4,
      fun d hd => by simpa [g] using (h5 d hd).1, fun d hd => by simpa [g] using (h6 d hd).2⟩
  | flush =>
    simp only [Receiver.step, guarded_eq_some] at hs
    obtain ⟨⟨g, -⟩, rfl⟩ := hs
    exact ⟨by simp, fun _ => hset _ (h2 (by simp [g])), by simp, h4,
      fun d hd => by simpa [g] using (h5 d hd).1, fun d hd => by simpa [g] using (h6 d hd).2⟩
  | settle e =>
    simp only [Receiver.step, guarded_eq_some] at hs
    obtain ⟨⟨g, hr⟩, rfl⟩ := hs
    have hw := hsettled (.inr (.inl g))
    refine ⟨fun hidle => by simp [hw] at hidle, fun _ => hset _ (h2 (by simp [hw])), h3, h4,
      fun _ _ => ⟨hw, by simp⟩, fun d hd => ?_⟩
    obtain rfl : e = .respond d := by simpa using hd
    exact absurd hr (h4 d)
  | joinError e =>
    simp only [Receiver.step, guarded_eq_some] at hs
    obtain ⟨⟨g, hw⟩, rfl⟩ := hs
    have he := h3 e hw
    exact ⟨h1, h2, h3, h4, fun d hd => absurd (by simpa using hd) (he d).1,
      fun d hd => absurd (by simpa using hd) (he d).2⟩
  | diskError detail =>
    simp only [Receiver.step, guarded_eq_some] at hs
    obtain ⟨g, rfl⟩ := hs
    have hne : s.writer ≠ .idle ∧ s.writer ≠ .done := by
      rcases g with g | g | g <;> simp [g]
    exact ⟨by simp, fun _ => h2 hne.1, by simp, h4, fun d hd => absurd (h5 d hd).1 hne.2,
      fun d hd => absurd (h6 d hd).2 hne.1⟩
  | writeError detail =>
    simp only [Receiver.step, guarded_eq_some] at hs
    obtain ⟨⟨g, -⟩, rfl⟩ := hs
    exact ⟨by simp, fun _ => h2 (by simp [g]), by simp, h4,
      fun d hd => by simpa [g] using (h5 d hd).1, fun d hd => by simpa [g] using (h6 d hd).2⟩
  | _ =>
    simp only [Receiver.step, guarded_eq_some] at hs
    obtain ⟨g, rfl⟩ := hs
    refine ⟨?_, ?_, ?_, ?_, ?_, ?_⟩ <;> clear hset <;> first
      | assumption
      | grind -ring -linarith [Pc.deciding]

end Receiver

theorem keeps_iff {fs : Files} {outputDir : Text} {existing : Bytes} {l : Loss}
    {s : Receiver.State C} (hex : fs (outputPath outputDir s.request.fileName) = some existing)
    (h : (receiver C outputDir).Reach (fun _ _ => True) { files := fs } s) (hl : LostAt l s) :
    Keeps existing s.files (outputPath outputDir s.request.fileName) ↔
      l = .reply ∨ s.request.forceRestart := by
  obtain ⟨hp, ht⟩ := h.invariant
    (I := fun s => Receiver.Phases outputDir fs s ∧ Receiver.Touches fs s)
    ⟨Receiver.Phases.start outputDir fs, Receiver.Touches.start fs⟩
    fun _ _ _ hI _ hs => ⟨hI.1.step hs, hI.2.step hI.1 hs⟩
  cases l with
  | reply =>
    obtain ⟨-, d, hd⟩ := hl
    have hfiles := ht.idle (ht.respond d hd).2
    simp [hfiles, keeps_of_eq hex]
  | stream =>
    obtain ⟨-, d, hd⟩ := hl
    obtain ⟨hw, hnone⟩ := ht.network d hd
    obtain ⟨-, hpath, -⟩ := hp.chosen (.inr (by simp [hw]))
    have hexists : fs.exists? (outputPath outputDir s.request.fileName) := by
      simp [Files.exists?, hex]
    cases hf : s.request.forceRestart with
    | false =>
      have hsame : s.path = outputPath outputDir s.request.fileName := by
        simp [hpath, finalPath, isResume, hf, hexists]
      rw [hsame] at hnone
      simp [not_keeps_of_none hnone]
    | true =>
      have hother : s.path = uniquePath fs (outputPath outputDir s.request.fileName) := by
        simp [hpath, finalPath, isResume, hf]
      have hne : outputPath outputDir s.request.fileName ≠ s.path := by
        rw [hother]
        exact (uniquePath_ne hexists).symm
      have hkept := ht.others (by simp [hw]) _ hne
      simp [keeps_of_eq (hkept.trans hex)]

end Alpn

/-- **Lost connections.** The file that was there survives a lost connection exactly if
the connection fails before the acceptance is sent or, over QUIC, if the sender had asked
for a new file. -/
theorem lost_connection_keeps_iff (C : Primitives) (fs : Files) (outputDir : Text) (l : Loss)
    (existing : Bytes) :
    (∀ (secret : C.Secret) pauses key (m : TransferMetadata C) p,
      fs (outputPath outputDir m.fileName) = some existing →
      ((Lan.compatAdmission C pauses secret fs outputDir).party (Lan.receiver C)).Reach
        (fun _ _ => True) (.replying key m) p → Lan.LostAt l p →
        (Keeps existing (Lan.filesAt fs p) (outputPath outputDir m.fileName) ↔ l = .reply)) ∧
    ∀ s : Alpn.Receiver.State C,
      fs (outputPath outputDir s.request.fileName) = some existing →
      (Alpn.receiver C outputDir).Reach (fun _ _ => True) { files := fs } s → Alpn.LostAt l s →
        (Keeps existing s.files (outputPath outputDir s.request.fileName) ↔
          l = .reply ∨ s.request.forceRestart) :=
  ⟨fun _ _ _ _ _ hex h hl => Lan.keeps_iff fs outputDir hex h hl,
    fun _ hex h hl => Alpn.keeps_iff hex h hl⟩

def sampleOut : Path := outputPath Lan.sampleDir Lan.sampleName

/-- One byte is there. -/
def partialOut : Files := noFiles.set sampleOut (some [1])

/-- An offer of two bytes. -/
def twoBytes : TransferMetadata .plain :=
  Lan.directMetadata .plain [] Lan.sampleName [1, 2] [0, 0, 0, 0] false

/-- A byte is kept when the acceptance cannot be sent. -/
theorem lost_reply_keeps : Keeps [1] partialOut sampleOut := by
  have hreach : ((Lan.compatAdmission .plain 0 Primitives.plainSecret partialOut
      Lan.sampleDir).party (Lan.receiver .plain)).Reach (fun _ _ => True)
      (.replying () twoBytes) (.failed (.io [])) :=
    Machine.Reach.refl.tail (a := .ioError []) trivial rfl
  exact ((lost_connection_keeps_iff .plain partialOut Lan.sampleDir .reply [1]).1
    Primitives.plainSecret 0 () twoBytes (.failed (.io [])) (Files.set_self _ _ _) hreach
    ⟨[], rfl⟩).mpr rfl

/-- The connection fails before anything has come. -/
def lanBroken : List (AdmitAct .plain (Lan.Receiver.Act .plain)) :=
  [.reply, .body .openFile, .body .proceed, .body (.readError []), .body .close, .body .flush,
    .body (.drained (.network []))]

def alpnBroken : List Alpn.Receiver.Act :=
  [.readRequest ⟨[], Lan.sampleName, 2, false⟩, .activate, .register, .answer true, .prepare,
    .respond, .openAppend, .getFlag, .proceed, .readError [], .close, .flush, .join, .clearFlag,
    .settle (.network []), .clearActive]

/-- A byte of a partial file is gone after the connection has failed, with either
receiver. -/
theorem lost_stream_removes :
    (∃ p, ((Lan.compatAdmission .plain 0 Primitives.plainSecret partialOut
        Lan.sampleDir).party (Lan.receiver .plain)).Reach (fun _ _ => True)
        (.replying () twoBytes) p ∧
      Lan.LostAt .stream p ∧ ¬ Keeps [1] (Lan.filesAt partialOut p) sampleOut) ∧
    ∃ s : Alpn.Receiver.State .plain,
      (Alpn.receiver .plain Lan.sampleDir).Reach (fun _ _ => True) { files := partialOut } s ∧
      Alpn.LostAt .stream s ∧ ¬ Keeps [1] s.files sampleOut := by
  constructor
  · obtain ⟨p, hp, hs⟩ := Option.map_eq_some_iff.mp
      (show (((Lan.compatAdmission .plain 0 Primitives.plainSecret partialOut
        Lan.sampleDir).party (Lan.receiver .plain)).run (.replying () twoBytes) lanBroken).map
          (fun p => p.loop.map fun s => (s.pc, s.loop, s.files sampleOut)) =
            some (some (.returned, .failed (.network []), none)) from rfl)
    obtain ⟨s, hloop, hend⟩ := Option.map_eq_some_iff.mp hs
    obtain rfl := AdmitPhase.loop_eq_some.mp hloop
    simp only [Prod.mk.injEq] at hend
    exact ⟨_, Machine.reach_of_run (fun _ _ _ => trivial) hp, ⟨s, _, rfl, hend.1, hend.2.1⟩,
      not_keeps_of_none hend.2.2⟩
  · obtain ⟨s, hs, he⟩ := Option.map_eq_some_iff.mp
      (show ((Alpn.receiver .plain Lan.sampleDir).run { files := partialOut } alpnBroken).map
        (fun s => (s.pc, s.result, s.files sampleOut)) =
          some (.returned, some (.error (.network [])), none) from rfl)
    simp only [Prod.mk.injEq] at he
    exact ⟨s, Machine.reach_of_run (fun _ _ _ => trivial) hs, ⟨he.1, [], he.2.1⟩,
      not_keeps_of_none he.2.2⟩

end P2PTransfer
