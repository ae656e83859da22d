import P2PTransfer.Lan.Receiver

/-!
# The LAN receiver of the desktop

The desktop has its own copy of `handle_incoming`. It keeps entries for the transfer in the two
registries, which it clears at other places than the copy of the core does, and it does not ask
whether the sender wants the file from the start. Apart from the registries every step of one
copy is a step of the other.

## Main definitions

- `Receiver.State`, `receiver`, `admission` — the desktop's copy
- `Agrees` — the two copies answer a transfer alike

## Main results

- `receiver_trace_iff` — the loops of the copies have the same histories
- `agrees_iff` — when they answer alike
-/

namespace P2PTransfer.Gui

open Transition Party

variable {C : Primitives}

namespace Receiver

open Lan.Receiver (Act LoopResult WriterPc chunkData verdict)

/-- `active` and `flag` are the entries in `ACTIVE_TRANSFERS` and `TRANSFER_PAUSE_FLAGS`. -/
structure State (C : Primitives) extends Lan.Receiver.State C where
  active : Bool := true
  flag : Bool := true

/-- The loop after the reply. -/
def State.start (pauses : Nat) (fs : Files) (outputDir : Text) (key : C.Key)
    (metadata : TransferMetadata C) : State C where
  pauses := pauses
  key := key
  metadata := metadata
  files := fs
  path := outputPath outputDir metadata.fileName
  resuming := (Gui.resume fs (outputPath outputDir metadata.fileName) metadata).2
  blockIndex :=
    (Gui.resume fs (outputPath outputDir metadata.fileName) metadata).1 / lanBlockSize
  bytesReceived := (Gui.resume fs (outputPath outputDir metadata.fileName) metadata).1

def step (s : State C) : Act C → Option (State C)
  -- the loop, which takes its transfer out of the registry where it fails
  | .proceed => guarded (s.pc = .check ∧ ¬ s.paused ∧ ¬ s.cancelled) { s with pc := .read }
  | .seeCancel => guarded (s.pc = .check ∧ s.cancelled)
      { s with pc := .close, loop := .failed .cancelled }
  | .chunk f data => guarded (s.pc = .read ∧ chunkData f = some data)
      { s with pc := .forward, held := some data }
  | .complete f => guarded (s.pc = .read ∧ f.tag = tagComplete ∧ ¬ f.oversized)
      { s with pc := .close, loop := .ended, receivedHash := some f.payload }
  | .other f => guarded (s.pc = .read ∧ chunkData f = none ∧ (f.tag = tagComplete → f.oversized))
      { s with pc := .close, loop := .failed (verdict f), active := false }
  | .hangup => guarded (s.pc = .read)
      { s with pc := .close, loop := .failed (.network "Failed to read message length".toList),
               active := false }
  | .readError detail => guarded (s.pc = .read)
      { s with pc := .close, loop := .failed (.network detail), active := false }
  | .forward data => guarded (s.pc = .forward ∧ s.held = some data ∧ ¬ s.writer.ended ∧
        s.channel.length < Lan.channelCapacity)
      { s with pc := .check, held := none, channel := s.channel ++ [(s.blockIndex, data)],
               blockIndex := s.blockIndex + 1,
               bytesReceived := s.bytesReceived + (data.length - tagLen) }
  | .writerGone => guarded (s.pc = .forward ∧ s.writer.ended)
      { s with pc := .close, loop := .failed .writerDied, active := false }
  -- after the loop
  | .close => guarded (s.pc = .close) { s with pc := s.loop.next, closed := true, flag := false }
  | .sendCancel => guarded (s.pc = .sendCancel)
      { s with pc := .drain, event := some .cancelled, active := false }
  | .drained e => guarded (s.pc = .drain ∧ s.writer.ended ∧ s.loop = .failed e)
      { s with pc := .returned, files := s.files.set s.path none, active := false,
               result := some (.error (if Lan.isCancel e.text then .cancelled else e)) }
  | .join => guarded (s.pc = .join ∧ s.writer = .done) { s with pc := .verify }
  | .joinError => guarded (s.pc = .join ∧ s.writer = .failed)
      { s with pc := .returned, files := s.files.set s.path none, active := false,
               result := some (.error .flush) }
  | .verify => guarded (s.pc = .verify)
      { s with pc := if C.blake3 s.content = s.metadata.checksum then .sendComplete
                     else .sendMismatch }
  | .verifyError detail => guarded (s.pc = .verify)
      { s with pc := .returned, files := s.files.set s.path none, active := false,
               result := some (.error (.verify detail)) }
  | .sendComplete => guarded (s.pc = .sendComplete)
      { s with pc := .returned, event := some (.complete s.path s.metadata.checksum),
               active := false, result := some (.ok ()) }
  | .sendMismatch => guarded (s.pc = .sendMismatch)
      { s with pc := .returned, files := s.files.set s.path none, active := false,
               result := some (.error .mismatch) }
  | .completeError detail => guarded (s.pc = .sendComplete)
      { s with pc := .returned, result := some (.error (.reply detail)) }
  -- the blocking task
  | .openFile => guarded (s.writer = .openFile)
      { s with writer := .write,
               files := if s.resuming then s.files else s.files.set s.path (some []) }
  | .writeBlock index data plain => guarded (s.writer = .write ∧
        s.channel.head? = some (index, data) ∧
        C.decrypt s.key (buildNonce s.metadata.noncePrefix index) data = some plain)
      (let written := BufWriter.writeAll lanBlockSize s.content s.buffer plain
       { s with channel := s.channel.tail, files := s.files.set s.path (some written.1),
                buffer := written.2 })
  | .decryptError index data => guarded (s.writer = .write ∧
        s.channel.head? = some (index, data) ∧
        C.decrypt s.key (buildNonce s.metadata.noncePrefix index) data = none)
      { s with writer := .failed }
  | .flush => guarded (s.writer = .write ∧ s.channel = [] ∧ s.closed)
      { s with writer := .done, buffer := [],
               files := s.files.set s.path (some (s.content ++ s.buffer)) }
  | .diskError => guarded (¬ s.writer.ended) { s with writer := .failed }
  -- the commands of the user
  | .pause => guarded (0 < s.pauses) { s with paused := true, pauses := s.pauses - 1 }
  | .resume => guarded s.paused { s with paused := false }
  | .cancel => some { s with cancelled := true }

end Receiver

/-- The desktop `handle_incoming` after the reply. -/
def receiver (C : Primitives) : Party (Receiver.State C) (Lan.Receiver.Act C) (Frame C) where
  step := Receiver.step
  recvs
    | .chunk f _ | .complete f | .other f => [f]
    | _ => []
  sends s
    | .sendCancel => [Frame.ofText tagError "Transfer cancelled by user".toList]
    | .sendComplete => [⟨tagComplete, s.receivedHash.getD (.text [])⟩]
    | .sendMismatch => [Frame.ofText tagError "Checksum mismatch".toList]
    | _ => []
  hangup
    | .hangup => true
    | _ => false
  closed s := decide (s.pc = .returned)

/-- The desktop `handle_incoming` up to the reply. -/
def admission (C : Primitives) (pauses : Nat) (secret : C.Secret) (fs : Files)
    (outputDir : Text) : Admission C (Receiver.State C) where
  secret := secret
  asks := true
  reply m := Frame.ofText tagMetadata
    (acceptText (Gui.resume fs (outputPath outputDir m.fileName) m).1)
  start := Receiver.State.start pauses fs outputDir
  complaint _ _ := []

namespace Receiver

open Lan.Receiver (Act)

/-- The step of the desktop is that of the core, registries aside. -/
theorem step_toState (s : State C) (a : Act C) :
    (Receiver.step s a).map State.toState = Lan.Receiver.step s.toState a := by
  cases a with
  | cancel => rfl
  | _ => simp only [Receiver.step, Lan.Receiver.step, guarded_map]

/-- The loop, up to where its pause flag is taken out of the registry. -/
def looping : Lan.Receiver.Pc → Bool
  | .check | .read | .forward | .close => true
  | _ => false

/-- What a returned call leaves in the registries: nothing, unless the last reply could not be
sent. -/
structure Cleared (s : State C) : Prop where
  flag : looping s.pc = false → s.flag = false
  active : s.pc = .returned → s.active → ∃ detail, s.result = some (.error (.reply detail))

theorem Cleared.step {s t : State C} {a : Act C} (h : Cleared s)
    (hs : Receiver.step s a = some t) : Cleared t := by
  obtain ⟨h1, h2⟩ := h
  cases a with
  | cancel =>
    obtain rfl := Option.some.inj hs
    exact ⟨h1, h2⟩
  | openFile | writeBlock | decryptError | flush | diskError | pause | resume =>
    obtain ⟨-, rfl⟩ := guarded_eq_some.mp hs
    exact ⟨h1, h2⟩
  | completeError detail =>
    obtain ⟨hpc, rfl⟩ := guarded_eq_some.mp hs
    exact ⟨fun _ => h1 (by rw [hpc]; rfl), fun _ _ => ⟨detail, rfl⟩⟩
  | close =>
    obtain ⟨-, rfl⟩ := guarded_eq_some.mp hs
    refine ⟨fun _ => rfl, fun hret => ?_⟩
    -- a loop that has ended goes on with the writer
    have hnext : s.loop.next ≠ .returned := by
      unfold Lan.Receiver.LoopResult.next
      split
      · split <;> simp
      · simp
    exact absurd hret hnext
  | verify =>
    obtain ⟨hpc, rfl⟩ := guarded_eq_some.mp hs
    refine ⟨fun _ => h1 (by rw [hpc]; rfl), fun hret => ?_⟩
    dsimp only at hret
    split at hret <;> cases hret
  | sendCancel | join =>
    simp only [Receiver.step, guarded_eq_some] at hs
    obtain ⟨hpc, rfl⟩ := hs
    exact ⟨fun _ => h1 (by simp [hpc, looping]), by simp⟩
  | drained | joinError | verifyError | sendComplete | sendMismatch =>
    simp only [Receiver.step, guarded_eq_some] at hs
    obtain ⟨hpc, rfl⟩ := hs
    exact ⟨fun _ => h1 (by simp [hpc, looping]), by simp⟩
  | _ =>
    simp only [Receiver.step, guarded_eq_some] at hs
    obtain ⟨-, rfl⟩ := hs
    exact ⟨by simp [looping], by simp⟩

end Receiver

/-- The registries of a call that has returned. -/
theorem cleared_of_trace {pauses : Nat} {fs : Files} {outputDir : Text} {key : C.Key}
    {m : TransferMetadata C} {i o : List (Frame C)} {s : Receiver.State C}
    (h : (receiver C).Trace (fun _ _ => True) (Receiver.State.start pauses fs outputDir key m)
      i o s) : Receiver.Cleared s :=
  h.invariant (I := fun _ _ s => Receiver.Cleared s) ⟨by simp [Receiver.State.start,
    Receiver.looping], by simp [Receiver.State.start]⟩
    fun _ _ _ _ _ hI _ hs => hI.step hs

/-- The loops of the two copies have the same histories. -/
theorem receiver_trace_iff {s₀ : Receiver.State C} {i o : List (Frame C)}
    {t : Lan.Receiver.State C} :
    (Lan.receiver C).Trace (fun _ _ => True) s₀.toState i o t ↔
      ∃ s, (receiver C).Trace (fun _ _ => True) s₀ i o s ∧ s.toState = t := by
  refine trace_view_iff Receiver.step_toState (fun a => ?_) fun s a => ?_
  · cases a <;> rfl
  · cases a <;> rfl

/-- The two copies answer a transfer alike: they decide alike whether to resume, send the same
reply to the offer, and after the same frames have sent the same and left the same files. -/
structure Agrees (pauses : Nat) (secret : C.Secret) (fs : Files) (outputDir : Text)
    (m : TransferMetadata C) : Prop where
  resume : Gui.resume fs (outputPath outputDir m.fileName) m =
    TcpCompat.resume fs (outputPath outputDir m.fileName) m
  reply : (admission C pauses secret fs outputDir).reply m =
    (Lan.compatAdmission C pauses secret fs outputDir).reply m
  outcome : ∀ key i o files,
    (∃ s, (receiver C).Trace (fun _ _ => True)
        ((admission C pauses secret fs outputDir).start key m) i o s ∧
      s.pc = .returned ∧ s.files = files) ↔
    ∃ s, (Lan.receiver C).Trace (fun _ _ => True)
        ((Lan.compatAdmission C pauses secret fs outputDir).start key m) i o s ∧
      s.pc = .returned ∧ s.files = files

/-- The decisions differ where the sender wants a file from the start that could be resumed. -/
theorem resume_eq_iff (fs : Files) (path : Path) (m : TransferMetadata C) :
    Gui.resume fs path m = TcpCompat.resume fs path m ↔
      ¬ (m.forceRestart ∧ 0 < fs.len path ∧ fs.len path < m.fileSize) := by
  unfold Gui.resume TcpCompat.resume lanResume
  cases m.forceRestart with
  | false => simp
  | true =>
    by_cases hpart : 0 < fs.len path ∧ fs.len path < m.fileSize
    · simp [hpart]
    · have hpart' : ¬ (0 < fs.len path && fs.len path < m.fileSize) = true := by
        simpa using hpart
      simp [hpart']
      omega

/-- **The copies of the LAN receiver.** They answer a transfer alike, unless the sender asks
for a restart and a part of the file is there. -/
theorem agrees_iff (pauses : Nat) (secret : C.Secret) (fs : Files) (outputDir : Text)
    (m : TransferMetadata C) :
    Agrees pauses secret fs outputDir m ↔
      ¬ (m.forceRestart ∧ 0 < fs.len (outputPath outputDir m.fileName) ∧
        fs.len (outputPath outputDir m.fileName) < m.fileSize) := by
  rw [← resume_eq_iff]
  constructor
  · exact Agrees.resume
  · intro hresume
    refine ⟨hresume, ?_, fun key i o files => ?_⟩
    · simp only [admission, Lan.compatAdmission, hresume]
    · have hstart : ((admission C pauses secret fs outputDir).start key m).toState =
          (Lan.compatAdmission C pauses secret fs outputDir).start key m := by
        simp only [admission, Receiver.State.start, hresume]
        rfl
      rw [← hstart]
      constructor
      · rintro ⟨s, htrace, hret, hfiles⟩
        exact ⟨s.toState, receiver_trace_iff.mpr ⟨s, htrace, rfl⟩, hret, hfiles⟩
      · rintro ⟨t, htrace, hret, hfiles⟩
        obtain ⟨s, hs, rfl⟩ := receiver_trace_iff.mp htrace
        exact ⟨s, hs, hret, hfiles⟩

/-- A file of two bytes that is to be sent from the start. -/
def restartMetadata : TransferMetadata .plain :=
  createMetadata .plain [] ['f'] [1, 2] lanBlockSize true

/-- Another byte is there: the desktop appends the two to it. -/
theorem restart_not_agrees :
    ¬ Agrees 0 Primitives.plainSecret
      (noFiles.set (outputPath ['/', 'd'] ['f']) (some [7])) ['/', 'd'] restartMetadata := by
  intro h
  have hlen : (noFiles.set (outputPath ['/', 'd'] ['f']) (some [7])).len
      (outputPath ['/', 'd'] restartMetadata.fileName) = 1 := by
    show (noFiles.set (outputPath ['/', 'd'] ['f']) (some [7])).len
      (outputPath ['/', 'd'] ['f']) = 1
    rw [Files.len, Files.set_self]
    rfl
  refine (resume_eq_iff _ _ _).mp h.resume ⟨rfl, ?_, ?_⟩
  · rw [hlen]
    decide
  · rw [hlen]
    decide

end P2PTransfer.Gui
