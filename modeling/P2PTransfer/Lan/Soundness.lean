import P2PTransfer.Lan.Transfer

/-!
# What a successful LAN send means

No fault, pause or cancellation is excluded here. A sender that returns a digest has
hashed its whole source, and has been answered by a receiver that compared the file
it leaves behind with the announced checksum.

## Main definitions

- `Sender.Hashes`, `Receiver.Verifies` — what holds of either side in every run
-/

namespace P2PTransfer.Lan

open Transition

variable {C : Primitives}

namespace Sender

/-- What the sender has hashed and how it came to its result. -/
structure Hashes (source : Bytes) (i : List (Frame C)) (s : State C) : Prop where
  skipped : s.reader = .hashPrefix → s.hashed = source.take s.processed ∧
    s.processed ≤ s.startOffset ∧ s.position = s.startOffset
  reading : s.reader = .read ∨ s.reader = .send → s.hashed = source.take s.position
  done : s.reader = .done → s.pc ≠ .returned → s.hashed = source
  joined : s.pc = .sendComplete ∨ s.pc = .awaitComplete → s.reader = .done
  fresh : s.pc ≠ .returned → s.result = none
  result : ∀ d, s.result = some (.ok d) → d = C.blake3 source ∧ ∃ f ∈ i, f.tag = tagComplete

theorem Hashes.start (source : Bytes) (pauses : Nat) (key : C.Key) (m : TransferMetadata C)
    (off : Nat) : Hashes source [] (State.start pauses key m off) := by
  constructor <;> simp [State.start]

/-- Reading on from a position of the source. -/
theorem take_append_read {source data : Bytes} {pos : Nat}
    (h : Disk.ofFile source pos data) :
    source.take pos ++ data = source.take (pos + data.length) := by
  obtain ⟨rest, hr⟩ := (Disk.ofFile_iff.mp h).1
  rw [List.take_add, ← hr, List.take_left']
  rfl

theorem outcome_ok {s : State C} {f : Frame C} {d : C.Digest} (h : s.outcome f = .ok d) :
    d = C.blake3 s.hashed ∧ f.tag = tagComplete := by
  unfold State.outcome at h
  split at h
  · cases h
  · split at h
    · cases h
    · split at h
      · next hc =>
        cases h
        exact ⟨rfl, hc⟩
      · cases h

theorem Hashes.step {source : Bytes} {i : List (Frame C)} {s t : State C} {a : Act C}
    (h : Hashes source i s) (hs : step (Disk.ofFile source) s a = some t) :
    Hashes source (i ++ (sender C (Disk.ofFile source)).recvs a) t := by
  obtain ⟨h1, h2, h3, h4, h5, h6⟩ := h
  cases a with
  | cancel =>
    obtain rfl := Option.some.inj hs
    simp only [sender, List.append_nil]
    exact ⟨h1, h2, h3, h4, h5, h6⟩
  | reply f =>
    simp only [Sender.step, guarded_eq_some] at hs
    obtain ⟨g, rfl⟩ := hs
    refine ⟨h1, h2, by simp, by simp, by simp, fun d hd => ?_⟩
    obtain ⟨rfl, hf⟩ := outcome_ok (Option.some.inj hd)
    have hall := h3 (h4 (.inr g)) (by simp [g])
    exact ⟨by rw [hall], f, by simp [sender], hf⟩
  | hashPrefix data =>
    simp only [Sender.step, sender, List.append_nil, guarded_eq_some] at hs ⊢
    obtain ⟨⟨g, hne, hdisk, hle, -⟩, rfl⟩ := hs
    obtain ⟨hh, -, hp⟩ := h1 g
    refine ⟨fun _ => ⟨?_, hle, hp⟩, by simp [g], by simp [g], h4, h5, h6⟩
    show s.hashed ++ data = _
    rw [hh, take_append_read hdisk]
  | seek =>
    simp only [Sender.step, sender, List.append_nil, guarded_eq_some] at hs ⊢
    obtain ⟨⟨g, hend⟩, rfl⟩ := hs
    obtain ⟨hh, hle, hp⟩ := h1 g
    refine ⟨by simp, fun _ => ?_, by simp, fun hpc => ?_, h5, h6⟩
    · show s.hashed = source.take s.position
      rcases hend with hend | hend
      · rw [hh, hp, Nat.le_antisymm hle hend]
      · have hall := (Disk.ofFile_iff.mp hend).2 rfl
        rw [hh, hp, List.take_of_length_le hall, List.take_of_length_le (hall.trans hle)]
    · have := h4 hpc
      simp [g] at this
  | read data =>
    simp only [Sender.step, sender, List.append_nil, guarded_eq_some] at hs ⊢
    obtain ⟨⟨g, hne, hdisk, -⟩, rfl⟩ := hs
    refine ⟨by simp, fun _ => ?_, by simp, fun hpc => ?_, h5, h6⟩
    · show s.hashed ++ data = _
      rw [h2 (.inl g), take_append_read hdisk]
    · have := h4 hpc
      simp [g] at this
  | endOfFile =>
    simp only [Sender.step, sender, List.append_nil, guarded_eq_some] at hs ⊢
    obtain ⟨⟨g, hdisk⟩, rfl⟩ := hs
    have hall := (Disk.ofFile_iff.mp hdisk).2 rfl
    refine ⟨by simp, by simp, fun _ _ => ?_, fun _ => rfl, h5, h6⟩
    show s.hashed = source
    rw [h2 (.inl g), List.take_of_length_le hall]
  | _ =>
    simp only [Sender.step, sender, List.append_nil, guarded_eq_some] at hs ⊢
    obtain ⟨g, rfl⟩ := hs
    refine ⟨?_, ?_, ?_, ?_, ?_, ?_⟩ <;> first
      | assumption
      | grind -ring -linarith

end Sender

namespace Receiver

/-- How the receiver comes to a COMPLETE frame. -/
structure Verifies (o : List (Frame C)) (s : State C) : Prop where
  late : s.pc = .verify ∨ s.pc = .sendComplete ∨ s.pc = .sendMismatch → s.writer = .done
  done : s.writer = .done → s.pc ≠ .returned → (s.files s.path).isSome
  verified : s.pc = .sendComplete → C.blake3 s.content = s.metadata.checksum
  replied : (∃ f ∈ o, f.tag = tagComplete) → s.pc = .returned ∧ s.writer = .done ∧
    ∃ content, s.files s.path = some content ∧ C.blake3 content = s.metadata.checksum

theorem Verifies.start (pauses : Nat) (fs : Files) (outputDir : Text) (key : C.Key)
    (m : TransferMetadata C) : Verifies [] (State.start pauses fs outputDir key m) := by
  constructor <;> simp [State.start]

theorem Verifies.step {o : List (Frame C)} {s t : State C} {a : Act C} (h : Verifies o s)
    (hs : step s a = some t) : Verifies (o ++ (receiver C).sends s a) t := by
  obtain ⟨h1, h2, h3, h4⟩ := h
  -- without a COMPLETE frame among the messages the last field carries over
  have hkeep : ∀ ms : List (Frame C), (∀ f ∈ ms, f.tag ≠ tagComplete) →
      (∃ f ∈ o ++ ms, f.tag = tagComplete) → ∃ f ∈ o, f.tag = tagComplete := by
    rintro ms hms ⟨f, hf, ht⟩
    rcases List.mem_append.mp hf with hf | hf
    · exact ⟨f, hf, ht⟩
    · exact absurd ht (hms f hf)
  cases a with
  | cancel =>
    obtain rfl := Option.some.inj hs
    simp only [receiver, List.append_nil]
    exact ⟨h1, h2, h3, h4⟩
  | sendComplete =>
    simp only [Receiver.step, guarded_eq_some] at hs
    obtain ⟨g, rfl⟩ := hs
    have hw := h1 (.inr (.inl g))
    obtain ⟨content, hc⟩ := Option.isSome_iff_exists.mp (h2 hw (by simp [g]))
    refine ⟨by simp, by simp, by simp, fun _ => ⟨rfl, hw, content, hc, ?_⟩⟩
    have hv := h3 g
    rwa [State.content, hc] at hv
  | verify =>
    simp only [Receiver.step, receiver, List.append_nil, guarded_eq_some] at hs ⊢
    obtain ⟨g, rfl⟩ := hs
    have hw := h1 (.inl g)
    refine ⟨fun _ => hw, fun hd _ => h2 hd (by simp [g]), fun hpc => ?_, fun ho => ?_⟩
    · by_contra hne
      have hne : C.blake3 s.content ≠ s.metadata.checksum := hne
      simp [hne] at hpc
    · have := (h4 ho).1
      simp [g] at this
  | close =>
    simp only [Receiver.step, receiver, List.append_nil, guarded_eq_some] at hs ⊢
    obtain ⟨g, rfl⟩ := hs
    have hnext : s.loop.next = .sendCancel ∨ s.loop.next = .drain ∨ s.loop.next = .join := by
      unfold LoopResult.next
      split
      · split <;> simp
      · simp
    refine ⟨?_, fun hd _ => h2 hd (by simp [g]), ?_, fun ho => ?_⟩
    · rcases hnext with hn | hn | hn <;> simp [hn]
    · rcases hnext with hn | hn | hn <;> simp [hn]
    · have := (h4 ho).1
      simp [g] at this
  | writeBlock index data plain =>
    simp only [Receiver.step, receiver, List.append_nil, guarded_eq_some] at hs ⊢
    obtain ⟨⟨g, -⟩, rfl⟩ := hs
    refine ⟨h1, by simp [g], fun hpc => ?_, fun ho => ?_⟩
    · have := h1 (.inr (.inl hpc))
      simp [g] at this
    · have := (h4 ho).2.1
      simp [g] at this
  | openFile =>
    simp only [Receiver.step, receiver, List.append_nil, guarded_eq_some] at hs ⊢
    obtain ⟨g, rfl⟩ := hs
    refine ⟨fun hpc => ?_, by simp, fun hpc => ?_, fun ho => ?_⟩
    · have := h1 hpc
      simp [g] at this
    · have := h1 (.inr (.inl hpc))
      simp [g] at this
    · have := (h4 ho).2.1
      simp [g] at this
  | flush =>
    simp only [Receiver.step, receiver, List.append_nil, guarded_eq_some] at hs ⊢
    obtain ⟨⟨g, -⟩, rfl⟩ := hs
    refine ⟨fun _ => rfl, fun _ _ => by simp, fun hpc => ?_, fun ho => ?_⟩
    · have := h1 (.inr (.inl hpc))
      simp [g] at this
    · have := (h4 ho).2.1
      simp [g] at this
  | diskError =>
    simp only [Receiver.step, receiver, List.append_nil, guarded_eq_some] at hs ⊢
    obtain ⟨g, rfl⟩ := hs
    have hw : s.writer ≠ .done := fun hd => g (by rw [hd]; rfl)
    exact ⟨fun hpc => absurd (h1 hpc) hw, by simp, fun hpc => absurd (h1 (.inr (.inl hpc))) hw,
      fun ho => absurd (h4 ho).2.1 hw⟩
  | sendCancel =>
    simp only [Receiver.step, guarded_eq_some] at hs
    obtain ⟨g, rfl⟩ := hs
    refine ⟨by simp, fun hd _ => h2 hd (by simp [g]), by simp, fun ho => ?_⟩
    have := (h4 (hkeep _ (fun f hf => ?_) ho)).1
    · simp [g] at this
    · rw [List.mem_singleton.mp hf]
      exact (by decide : tagError ≠ tagComplete)
  | sendMismatch =>
    simp only [Receiver.step, guarded_eq_some] at hs
    obtain ⟨g, rfl⟩ := hs
    refine ⟨by simp, by simp, by simp, fun ho => ?_⟩
    have := (h4 (hkeep _ (fun f hf => ?_) ho)).1
    · simp [g] at this
    · rw [List.mem_singleton.mp hf]
      exact (by decide : tagError ≠ tagComplete)
  | _ =>
    simp only [Receiver.step, receiver, List.append_nil, guarded_eq_some] at hs ⊢
    obtain ⟨g, rfl⟩ := hs
    refine ⟨?_, ?_, ?_, ?_⟩ <;> first
      | assumption
      | grind -ring -linarith [State.content, WriterPc.ended]

end Receiver

section Session

variable (sessionId fileName outputDir : Text) (source noncePrefix : Bytes) (forceRestart : Bool)
  (secret secret' : C.Secret) (pauses pauses' : Nat) (fs : Files)

/-- Both functions on one connection. -/
def session (C : Primitives) (sessionId fileName outputDir : Text) (source noncePrefix : Bytes)
    (forceRestart : Bool) (secret secret' : C.Secret) (pauses pauses' : Nat) (fs : Files) :
    Machine (Net (OpenPhase C (Sender.State C)) (AdmitPhase C (Receiver.State C)) (Frame C))
      (OpenAct C (Sender.Act C) ⊕ AdmitAct C (Receiver.Act C)) :=
  ((directOpening C pauses secret
      (directMetadata C sessionId fileName source noncePrefix forceRestart)).party
    (sender C (Disk.ofFile source))).link
  ((compatAdmission C pauses' secret' fs outputDir).party (receiver C))

variable {sessionId fileName outputDir source noncePrefix forceRestart secret secret' pauses
  pauses' fs}

/-- **Soundness of a LAN send.** In every run, whatever fails or is cancelled, a digest
that the sender returns is that of the source, and the receiver's file is the source. -/
theorem ok_sound (hinj : Function.Injective C.blake3)
    {n : Net (OpenPhase C (Sender.State C)) (AdmitPhase C (Receiver.State C)) (Frame C)}
    (h : (session C sessionId fileName outputDir source noncePrefix forceRestart secret secret'
      pauses pauses' fs).Reach (fun _ _ => True) (Session.start C _ _) n)
    {s : Sender.State C} (hs : n.left = .running s) {d : C.Digest}
    (hd : s.result = some (.ok d)) :
    d = C.blake3 source ∧ ∃ r, n.right = .running r ∧
      r.files (outputPath outputDir fileName) = some source := by
  obtain ⟨iL, oL, iR, oR, hl, hr, hout, hin⟩ := Party.link_traces (fun _ _ => True)
    (fun _ _ => True) (fun _ _ _ => trivial) (fun _ _ _ => trivial) h
  have hleft := Opening.trace_history (fun _ _ => True) (fun _ _ _ => trivial) hl
  have hright := Admission.trace_history (fun _ _ => True) (fun _ _ _ => trivial) hr
  rw [hs] at hleft
  obtain ⟨k, f, s₀, i, o, hstart, htr, rfl, rfl⟩ := hleft
  obtain ⟨off, -, rfl⟩ := Option.map_eq_some_iff.mp hstart
  have hhash := htr.invariant (I := fun i _ s => Sender.Hashes source i s)
    (Sender.Hashes.start source _ _ _ _) fun _ _ _ _ _ hI _ hstep => hI.step hstep
  obtain ⟨rfl, g, hg, htag⟩ := hhash.result d hd
  refine ⟨rfl, ?_⟩
  -- the COMPLETE frame that was taken has been put by the loop of the receiver
  have hmem : g ∈ oR := by
    rw [hin]
    simp [hg]
  have hhello : ∀ g', g' = (compatAdmission C pauses' secret' fs outputDir).hello →
      g'.tag ≠ tagComplete := by
    rintro g' rfl
    exact (by decide : tagServerHello ≠ tagComplete)
  cases hp : n.right with
  | running r =>
    rw [hp] at hright
    obtain ⟨k', m, i', o', htr', rfl, rfl⟩ := hright
    have hver := htr'.invariant (I := fun _ o r => Receiver.Verifies o r ∧
        r.metadata = m ∧ r.path = outputPath outputDir m.fileName)
      ⟨Receiver.Verifies.start _ _ _ _ _, rfl, rfl⟩ fun _ _ _ _ _ hI _ hstep => by
        obtain ⟨-, hm, hpath, -⟩ := Receiver.step_const hstep
        exact ⟨hI.1.step hstep, hm.trans hI.2.1, hpath.trans hI.2.2⟩
    obtain ⟨hver, hm, hpath⟩ := hver
    have hm' : m = directMetadata C sessionId fileName source noncePrefix forceRestart := by
      simp only [List.cons_append, List.cons.injEq, Opening.offer, Frame.mk.injEq,
        Payload.metadata.injEq, true_and] at hout
      exact hout.2.1.symm
    have ho : g ∈ o' := by
      rcases List.mem_cons.mp hmem with hg' | hg'
      · exact absurd htag (hhello g hg')
      · rcases List.mem_cons.mp hg' with hg' | hg'
        · exact absurd htag (hg' ▸ (by decide : tagMetadata ≠ tagComplete))
        · exact hg'
    obtain ⟨-, -, content, hc, hsum⟩ := hver.replied ⟨g, ho, htag⟩
    refine ⟨r, rfl, ?_⟩
    rw [hpath, hm'] at hc
    rw [hm, hm'] at hsum
    exact hc.trans (congrArg some (hinj hsum))
  | failed e =>
    rw [hp] at hright
    rcases hright g hmem with hg' | ⟨f, e, hg'⟩
    · exact absurd htag (hhello g hg')
    · cases hg'
  | awaitHello =>
    rw [hp] at hright
    obtain ⟨-, rfl⟩ := hright
    cases hmem
  | hello key =>
    rw [hp] at hright
    obtain ⟨k', -, -, rfl⟩ := hright
    cases hmem
  | awaitMetadata key =>
    rw [hp] at hright
    obtain ⟨k', -, -, rfl⟩ := hright
    exact absurd htag (hhello g (List.mem_singleton.mp hmem))
  | asking key m =>
    rw [hp] at hright
    obtain ⟨k', -, -, rfl⟩ := hright
    exact absurd htag (hhello g (List.mem_singleton.mp hmem))
  | replying key m =>
    rw [hp] at hright
    obtain ⟨k', -, -, rfl⟩ := hright
    exact absurd htag (hhello g (List.mem_singleton.mp hmem))

end Session

/-- A run in which two bytes are sent to a new file. -/
def sampleRun (m : TransferMetadata .plain) :
    List (OpenAct .plain (Sender.Act .plain) ⊕ AdmitAct .plain (Receiver.Act .plain)) :=
  let data : Bytes := [1, 2] ++ List.replicate tagLen 0
  let chunk : Frame .plain := Frame.ofChunk 0 false data
  let finish : Frame .plain := ⟨tagComplete, .hex (Primitives.plain.blake3 [1, 2])⟩
  ([.inl .hello, .inr (.clientHello ⟨tagClientHello, .key ()⟩), .inr .hello,
    .inl (.serverHello ⟨tagServerHello, .key ()⟩), .inl .metadata,
    .inr (.metadata ⟨tagMetadata, .metadata m⟩), .inr (.answer true), .inr .reply,
    .inl (.reply (Frame.ofText tagMetadata (acceptText 0)))] :
      List (OpenAct .plain (Sender.Act .plain) ⊕ AdmitAct .plain (Receiver.Act .plain))) ++
  ([.seek, .read [1, 2], .push (chunk, 2), .endOfFile, .proceed, .dequeue (chunk, 2),
    .write (chunk, 2), .proceed, .endOfData, .join, .sendComplete] : List (Sender.Act .plain)).map
      (.inl ∘ .body) ++
  ([.openFile, .proceed, .chunk chunk data, .forward data, .writeBlock 0 data [1, 2], .proceed,
    .complete finish, .close, .flush, .join, .verify, .sendComplete] :
      List (Receiver.Act .plain)).map (.inr ∘ .body) ++
  ([.inl (.body (.reply finish))] :
    List (OpenAct .plain (Sender.Act .plain) ⊕ AdmitAct .plain (Receiver.Act .plain)))

/-- Two bytes arrive in a new file. -/
theorem ok_sound_new : ∃ r : Receiver.State .plain,
    ([1, 2] : Bytes) = Primitives.plain.blake3 [1, 2] ∧
      r.files (outputPath sampleDir sampleName) = some [1, 2] := by
  obtain ⟨n, hn, hs⟩ := Option.map_eq_some_iff.mp
    (show ((session .plain [] sampleName sampleDir [1, 2] [0, 0, 0, 0] false
        Primitives.plainSecret Primitives.plainSecret 0 0 noFiles).runUnder (fun _ _ => True)
        (Session.start .plain _ _) (sampleRun (directMetadata .plain [] sampleName [1, 2]
          [0, 0, 0, 0] false))).map
      (fun n => n.left.loop.bind fun s => s.result) = some (some (.ok [1, 2])) from rfl)
  obtain ⟨s, hl, hok⟩ := Option.bind_eq_some_iff.mp hs
  obtain ⟨hd, r, -, hr⟩ := ok_sound (fun _ _ h => h) (Machine.reach_of_runUnder _ hn)
    (OpenPhase.loop_eq_some.mp hl) hok
  exact ⟨r, hd, hr⟩

end P2PTransfer.Lan
