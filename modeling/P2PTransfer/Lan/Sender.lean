import P2PTransfer.Storage.OutputPath
import P2PTransfer.Tcp.Session

/-!
# The LAN sender

`send_file_direct_tcp` after the reply: the function itself, the blocking task that
reads and encrypts the file, and the channel between them. The offset of the reply
decides where the file is read from and how the blocks are numbered.

## Main definitions

- `sealed`, `frames` — consecutive blocks as the reader task encrypts and frames them
- `Sender.State`, `Sender.Act`, `sender` — the loop as a party
- `directOpening` — how the function opens a session
-/

namespace P2PTransfer.Lan

open Transition

variable {C : Primitives}

def channelCapacity : Nat := 32

/-- Blocks with their numbers, encrypted under them. -/
def sealed (key : C.Key) (pre : Bytes) : Nat → List Bytes → List (Nat × Bytes)
  | _, [] => []
  | k, d :: ds => (k, C.encrypt key (buildNonce pre k) d) :: sealed key pre (k + 1) ds

/-- The wire frames of the blocks. -/
def frames (key : C.Key) (pre : Bytes) (k : Nat) (ds : List Bytes) : List (Frame C) :=
  (sealed key pre k ds).map fun b => Frame.ofChunk b.1 false b.2

inductive SendError where
  | cancelled
  | io (detail : Text)
  | reader (detail : Text)
  | receiver (message : Text)
  | expectedComplete
deriving DecidableEq

def SendError.text : SendError → Text
  | .cancelled => "Transfer cancelled by user".toList
  | .io e => e
  | .reader e => e
  | .receiver e => "Receiver error: ".toList ++ e
  | .expectedComplete => "Expected COMPLETE ACK".toList

namespace Sender

inductive Pc where
  | check
  | dequeue
  | write
  | sendError (e : SendError)
  | join
  | sendComplete
  | awaitComplete
  | returned
deriving DecidableEq

/-- The blocking task. In `send` it holds a frame that the channel has not taken. -/
inductive ReaderPc where
  | hashPrefix
  | read
  | send
  | done
  | failed (detail : Text)
deriving DecidableEq

def ReaderPc.ended : ReaderPc → Bool
  | .done | .failed _ => true
  | _ => false

/-- The state of the function, its task and its channel. The user pauses the transfer
at most `pauses` more times. -/
structure State (C : Primitives) where
  key : C.Key
  noncePrefix : Bytes
  startOffset : Nat
  pc : Pc := .check
  paused : Bool := false
  pauses : Nat
  cancelled : Bool := false
  reader : ReaderPc := .hashPrefix
  processed : Nat := 0
  position : Nat
  blockIdx : Nat
  hashed : Bytes := []
  held : Option (Frame C × Nat) := none
  channel : List (Frame C × Nat) := []
  wire : Option (Frame C × Nat) := none
  bytesSent : Nat
  result : Option (Except SendError C.Digest) := none

/-- The loop after a reply with this offset. -/
def State.start (pauses : Nat) (key : C.Key) (metadata : TransferMetadata C) (startOffset : Nat) :
    State C where
  pauses := pauses
  key := key
  noncePrefix := metadata.noncePrefix
  startOffset := startOffset
  position := startOffset
  blockIdx := startOffset / lanBlockSize
  bytesSent := startOffset

inductive Act (C : Primitives) where
  | proceed
  | seeCancel
  | dequeue (item : Frame C × Nat)
  | endOfData
  | write (item : Frame C × Nat)
  | sendError (e : SendError)
  | join
  | joinError (detail : Text)
  | sendComplete
  | reply (f : Frame C)
  | hangup
  | hashPrefix (data : Bytes)
  | seek
  | read (data : Bytes)
  | endOfFile
  | push (item : Frame C × Nat)
  | pushFailed
  | readError (detail : Text)
  | writeError (detail : Text)
  | completeError (detail : Text)
  | pause
  | resume
  | cancel

/-- The actions of a run without faults and cancellation. -/
def Act.clean : Act C → Bool
  | .readError _ | .writeError _ | .completeError _ | .cancel => false
  | _ => true

/-- The actions of a run in which also the peer answers to the end. -/
def Act.smooth : Act C → Bool
  | .hangup => false
  | a => a.clean

/-- What the answer to the COMPLETE frame means. -/
def State.outcome (s : State C) (f : Frame C) : Except SendError C.Digest :=
  if f.oversized then .error (.io "Oversized message".toList)
  else if f.tag = tagError then
    .error (.receiver (match f.payload with | .text t => t | _ => []))
  else if f.tag = tagComplete then .ok (C.blake3 s.hashed)
  else .error .expectedComplete

def State.frame (s : State C) (data : Bytes) : Frame C :=
  Frame.ofChunk s.blockIdx false (C.encrypt s.key (buildNonce s.noncePrefix s.blockIdx) data)

/-- One step. The select of the loop is biased: while the flag is cancelled, no chunk
is dequeued. -/
def step (disk : Disk) (s : State C) : Act C → Option (State C)
  | .proceed => guarded (s.pc = .check ∧ ¬ s.paused ∧ ¬ s.cancelled) { s with pc := .dequeue }
  | .seeCancel => guarded ((s.pc = .check ∨ s.pc = .dequeue) ∧ s.cancelled)
      { s with pc := .sendError .cancelled }
  | .dequeue item => guarded (s.pc = .dequeue ∧ ¬ s.cancelled ∧ s.channel.head? = some item)
      { s with pc := .write, channel := s.channel.tail, wire := some item }
  | .endOfData => guarded (s.pc = .dequeue ∧ ¬ s.cancelled ∧ s.channel = [] ∧ s.reader.ended)
      { s with pc := .join }
  | .write item => guarded (s.pc = .write ∧ s.wire = some item)
      { s with pc := .check, wire := none, bytesSent := s.bytesSent + item.2 }
  | .writeError detail => guarded (s.pc = .write) { s with pc := .sendError (.io detail) }
  | .sendError e => guarded (s.pc = .sendError e)
      { s with pc := .returned, result := some (.error e) }
  | .join => guarded (s.pc = .join ∧ s.reader = .done) { s with pc := .sendComplete }
  | .joinError detail => guarded (s.pc = .join ∧ s.reader = .failed detail)
      { s with pc := .returned, result := some (.error (.reader detail)) }
  | .sendComplete => guarded (s.pc = .sendComplete) { s with pc := .awaitComplete }
  | .completeError detail => guarded (s.pc = .sendComplete ∨ s.pc = .awaitComplete)
      { s with pc := .returned, result := some (.error (.io detail)) }
  | .reply f => guarded (s.pc = .awaitComplete)
      { s with pc := .returned, result := some (s.outcome f) }
  | .hangup => guarded (s.pc = .awaitComplete)
      { s with pc := .returned,
               result := some (.error (.io "Failed to read message length".toList)) }
  -- the reader hashes the prefix that the receiver has, seeks, and encrypts the rest
  | .hashPrefix data => guarded (s.reader = .hashPrefix ∧ data ≠ [] ∧ disk s.processed data ∧
        s.processed + data.length ≤ s.startOffset ∧ data.length ≤ lanBlockSize)
      { s with processed := s.processed + data.length, hashed := s.hashed ++ data }
  | .seek => guarded (s.reader = .hashPrefix ∧
        (s.startOffset ≤ s.processed ∨ disk s.processed []))
      { s with reader := .read }
  | .read data => guarded (s.reader = .read ∧ data ≠ [] ∧ disk s.position data ∧
        data.length ≤ lanBlockSize)
      { s with reader := .send, held := some (s.frame data, data.length),
               position := s.position + data.length, hashed := s.hashed ++ data }
  | .endOfFile => guarded (s.reader = .read ∧ disk s.position []) { s with reader := .done }
  | .push item => guarded (s.reader = .send ∧ s.held = some item ∧ s.pc ≠ .returned ∧
        s.channel.length < channelCapacity)
      { s with reader := .read, held := none, channel := s.channel ++ [item],
               blockIdx := s.blockIdx + 1 }
  -- a reader that cannot hand on a block ends as if the file had ended
  | .pushFailed => guarded (s.reader = .send ∧ s.pc = .returned) { s with reader := .done }
  | .readError detail => guarded (s.reader = .hashPrefix ∨ s.reader = .read)
      { s with reader := .failed detail }
  | .pause => guarded (0 < s.pauses) { s with paused := true, pauses := s.pauses - 1 }
  | .resume => guarded s.paused { s with paused := false }
  | .cancel => some { s with cancelled := true }

end Sender

/-- `send_file_direct_tcp` after the reply. -/
def sender (C : Primitives) (disk : Disk) : Party (Sender.State C) (Sender.Act C) (Frame C) where
  step := Sender.step disk
  recvs
    | .reply f => [f]
    | _ => []
  sends s
    | .write item => [item.1]
    | .sendError e => [Frame.ofText tagError e.text]
    | .sendComplete => [⟨tagComplete, .hex (C.blake3 s.hashed)⟩]
    | _ => []
  hangup
    | .hangup => true
    | _ => false
  closed s := decide (s.pc = .returned)

/-- `send_file_direct_tcp` up to the reply. -/
def directOpening (C : Primitives) (pauses : Nat) (secret : C.Secret)
    (metadata : TransferMetadata C) : Opening C (Sender.State C) where
  secret := secret
  metadata := metadata
  start key f := f.offset.map (Sender.State.start pauses key metadata)

theorem sealed_append (key : C.Key) (pre : Bytes) (k : Nat) (ds es : List Bytes) :
    sealed key pre k (ds ++ es) = sealed key pre k ds ++ sealed key pre (k + ds.length) es := by
  induction ds generalizing k with
  | nil => simp [sealed]
  | cons d ds ih => simp [sealed, ih, Nat.add_assoc, Nat.add_comm 1]

theorem frames_append (key : C.Key) (pre : Bytes) (k : Nat) (ds es : List Bytes) :
    frames key pre k (ds ++ es) = frames key pre k ds ++ frames key pre (k + ds.length) es := by
  simp [frames, sealed_append]

theorem encrypt_injective {key : C.Key} {n : Nonce} {d d' : Bytes}
    (h : C.encrypt key n d = C.encrypt key n d') : d = d' := by
  have hd := C.decrypt_encrypt key n d
  rw [h, C.decrypt_encrypt] at hd
  exact (Option.some.inj hd).symm

theorem frames_cons (key : C.Key) (pre : Bytes) (k : Nat) (d : Bytes) (ds : List Bytes) :
    frames key pre k (d :: ds) =
      Frame.ofChunk k false (C.encrypt key (buildNonce pre k) d) :: frames key pre (k + 1) ds := rfl

/-- What has been put of the frames is the frames of some of the blocks. -/
theorem frames_split {key : C.Key} {pre : Bytes} {k : Nat} {ds : List Bytes}
    {sent rest : List (Frame C)} (h : sent ++ rest = frames key pre k ds) :
    ∃ ds' ds'', ds = ds' ++ ds'' ∧ sent = frames key pre k ds' := by
  induction sent generalizing k ds with
  | nil => exact ⟨[], ds, rfl, rfl⟩
  | cons f sent ih =>
    cases ds with
    | nil => exact absurd h (by simp [frames, sealed])
    | cons d ds =>
      rw [frames_cons, List.cons_append] at h
      obtain ⟨hf, htail⟩ := List.cons.inj h
      obtain ⟨ds', ds'', rfl, hsent⟩ := ih htail
      exact ⟨d :: ds', ds'', rfl, by rw [frames_cons, hf, hsent]⟩

/-- After some of the blocks comes the next block, or what follows all of them. -/
theorem frames_next {key : C.Key} {pre : Bytes} {k : Nat} {ds ds' : List Bytes}
    {closing rest : List (Frame C)} {f : Frame C} (hc : ∀ g ∈ closing, g.tag = tagComplete)
    (h : frames key pre k ds ++ closing = frames key pre k ds' ++ f :: rest) :
    (∃ d es, ds = ds' ++ d :: es ∧
      f = Frame.ofChunk (k + ds'.length) false (C.encrypt key (buildNonce pre (k + ds'.length)) d)) ∨
      (ds = ds' ∧ closing = f :: rest) := by
  induction ds' generalizing k ds with
  | nil =>
    cases ds with
    | nil => exact .inr ⟨rfl, h⟩
    | cons d es =>
      rw [frames_cons, List.cons_append] at h
      exact .inl ⟨d, es, rfl, (List.cons.inj h).1.symm⟩
  | cons d' ds' ih =>
    cases ds with
    | nil =>
      have hmem : Frame.ofChunk k false (C.encrypt key (buildNonce pre k) d') ∈ closing := by
        have hnil : frames key pre k ([] : List Bytes) ++ closing = closing := rfl
        rw [← hnil, h, frames_cons]
        simp
      exact absurd (hc _ hmem) (by simp [Frame.ofChunk, tagChunk, tagComplete])
    | cons d es =>
      simp only [frames_cons, List.cons_append, List.cons.injEq] at h
      obtain ⟨hd, htail⟩ := h
      have hd : d = d' := by
        simp only [Frame.ofChunk, Frame.mk.injEq, Payload.chunk.injEq, true_and] at hd
        exact encrypt_injective hd
      subst hd
      rcases ih htail with ⟨d, fs, rfl, rfl⟩ | ⟨rfl, hr⟩
      · refine .inl ⟨d, fs, rfl, ?_⟩
        rw [List.length_cons, Nat.add_right_comm, Nat.add_assoc]
      · exact .inr ⟨rfl, hr⟩

namespace Sender

/-- The frames between the reader task and the stream. -/
def State.transit (s : State C) : List (Frame C) :=
  s.wire.toList.map Prod.fst ++ s.channel.map Prod.fst ++ s.held.toList.map Prod.fst

def Pc.completed : Pc → Bool
  | .awaitComplete | .returned => true
  | _ => false

/-- After the loop. -/
def Pc.tail : Pc → Bool
  | .join | .sendComplete | .awaitComplete | .returned => true
  | _ => false

/-- What the function puts after the blocks. -/
def State.closing (s : State C) : List (Frame C) :=
  if s.pc.completed then [⟨tagComplete, .hex (C.blake3 s.hashed)⟩] else []

/-- The block that an action reads. -/
def Act.block : Act C → List Bytes
  | .read data => [data]
  | _ => []

/-- The block frame that an action puts on the stream. -/
def Act.put : Act C → List (Frame C)
  | .write item => [item.1]
  | _ => []

theorem step_const {disk : Disk} {s t : State C} {a : Act C} (hs : step disk s a = some t) :
    t.key = s.key ∧ t.noncePrefix = s.noncePrefix ∧ t.startOffset = s.startOffset := by
  cases a with
  | cancel =>
    obtain rfl := Option.some.inj hs
    exact ⟨rfl, rfl, rfl⟩
  | _ =>
    simp only [step, guarded_eq_some] at hs
    obtain ⟨-, rfl⟩ := hs
    exact ⟨rfl, rfl, rfl⟩

/-- What a sender that nothing disturbs has read, sent and received. -/
structure Streams (source : Bytes) (ds : List Bytes) (sent i o : List (Frame C))
    (s : State C) : Prop where
  out : o = sent ++ s.closing
  pipe : sent ++ s.transit = frames s.key s.noncePrefix (s.startOffset / lanBlockSize) ds
  data : source.drop s.startOffset = ds.flatten ++ source.drop s.position
  position : s.position = s.startOffset + ds.flatten.length
  blocks : ∀ d ∈ ds, d.length ≤ lanBlockSize
  blockIdx : s.blockIdx + s.held.toList.length = s.startOffset / lanBlockSize + ds.length
  held : s.held = none ↔ s.reader ≠ .send
  done : s.reader = .done → source.length ≤ s.position
  input : s.pc ≠ .returned → i = []

/-- How a sender that nothing disturbs goes on. -/
structure Undisturbed (i : List (Frame C)) (s : State C) : Prop where
  cancelled : s.cancelled = false
  pc : ∀ e, s.pc ≠ .sendError e
  reader : ∀ detail, s.reader ≠ .failed detail
  wire : s.wire = none ↔ s.pc ≠ .write
  tail : s.pc.tail → s.reader = .done ∧ s.channel = []
  fresh : s.pc ≠ .returned → s.result = none
  returned : s.pc = .returned → ∃ f, i = [f] ∧ s.result = some (s.outcome f)

theorem Undisturbed.step {disk : Disk} {i : List (Frame C)} {s t : State C} {a : Act C}
    (h : Undisturbed i s) (hi : s.pc ≠ .returned → i = []) (ha : a.smooth)
    (hs : step disk s a = some t) :
    Undisturbed (i ++ (sender C disk).recvs a) t := by
  obtain ⟨h1, h2, h3, h4, h5, h6, h7⟩ := h
  cases a with
  | reply f =>
    simp only [Sender.step, guarded_eq_some] at hs
    obtain ⟨g, rfl⟩ := hs
    have hd := (h5 (by simp [g, Pc.tail])).1
    refine ⟨h1, by simp, h3, by simpa [g] using h4, fun _ => h5 (by simp [g, Pc.tail]), by simp,
      fun _ => ⟨f, ?_, rfl⟩⟩
    simp [hi (by simp [g]), sender]
  | endOfData =>
    simp only [Sender.step, guarded_eq_some] at hs
    obtain ⟨⟨g, -, hch, hend⟩, rfl⟩ := hs
    have hdone : s.reader = .done := by
      cases hr : s.reader with
      | done => rfl
      | failed detail => exact absurd hr (h3 detail)
      | _ => simp [hr, ReaderPc.ended] at hend
    exact ⟨h1, by simp, h3, by simpa [g] using h4, fun _ => ⟨hdone, hch⟩, fun _ => h6 (by simp [g]),
      by simp⟩
  | hangup => cases ha
  | readError detail => cases ha
  | writeError detail => cases ha
  | completeError detail => cases ha
  | cancel => cases ha
  | _ =>
    simp only [Sender.step, guarded_eq_some] at hs
    simp only [sender, List.append_nil]
    obtain ⟨g, rfl⟩ := hs
    refine ⟨?_, ?_, ?_, ?_, ?_, ?_, ?_⟩ <;> first
      | assumption
      | grind -ring -linarith [Pc.tail, ReaderPc.ended]

theorem Undisturbed.not_completed {i : List (Frame C)} {s : State C} (h : Undisturbed i s)
    (hr : s.reader ≠ .done) : s.pc.tail = false ∧ s.closing = [] := by
  have ht : s.pc.tail = false := Bool.eq_false_iff.mpr fun ht => hr (h.tail ht).1
  have hc : s.pc.completed = false := by cases hp : s.pc <;> simp_all [Pc.completed, Pc.tail]
  exact ⟨ht, by simp [State.closing, hc]⟩

theorem Streams.step {source : Bytes} {ds : List Bytes} {sent i o : List (Frame C)}
    {s t : State C} {a : Act C} (h : Streams source ds sent i o s) (hu : Undisturbed i s)
    (ha : a.clean) (hs : step (Disk.ofFile source) s a = some t) :
    Streams source (ds ++ a.block) (sent ++ a.put) (i ++ (sender C (Disk.ofFile source)).recvs a)
      (o ++ (sender C (Disk.ofFile source)).sends s a) t := by
  obtain ⟨h1, h2, h3, h4, h5, h6, h7, h8, h9⟩ := h
  cases a with
  | readError detail => cases ha
  | writeError detail => cases ha
  | completeError detail => cases ha
  | cancel => cases ha
  | sendError e =>
    simp only [Sender.step, guarded_eq_some] at hs
    exact absurd hs.1 (hu.pc e)
  | joinError detail =>
    simp only [Sender.step, guarded_eq_some] at hs
    exact absurd hs.1.2 (hu.reader detail)
  | dequeue item =>
    simp only [Sender.step, sender, Act.block, Act.put, List.append_nil, guarded_eq_some] at hs ⊢
    obtain ⟨⟨g, -, hhead⟩, rfl⟩ := hs
    obtain ⟨rest, hrest⟩ := List.head?_eq_some_iff.mp hhead
    have hw : s.wire = none := hu.wire.mpr (by simp [g])
    refine ⟨?_, ?_, h3, h4, h5, h6, h7, h8, fun _ => h9 (by simp [g])⟩
    · simpa [State.closing, g, Pc.completed] using h1
    · simpa [State.transit, hw, hrest] using h2
  | write item =>
    simp only [Sender.step, sender, Act.block, Act.put, List.append_nil, guarded_eq_some] at hs ⊢
    obtain ⟨⟨g, hw⟩, rfl⟩ := hs
    refine ⟨?_, ?_, h3, h4, h5, h6, h7, h8, fun _ => h9 (by simp [g])⟩
    · simpa [State.closing, g, Pc.completed] using h1
    · simpa [State.transit, hw] using h2
  | sendComplete =>
    simp only [Sender.step, sender, Act.block, Act.put, List.append_nil, guarded_eq_some] at hs ⊢
    obtain ⟨g, rfl⟩ := hs
    refine ⟨?_, h2, h3, h4, h5, h6, h7, h8, fun _ => h9 (by simp [g])⟩
    simp [State.closing, g, Pc.completed] at h1 ⊢
    exact h1
  | reply f =>
    simp only [Sender.step, sender, Act.block, Act.put, List.append_nil, guarded_eq_some] at hs ⊢
    obtain ⟨g, rfl⟩ := hs
    refine ⟨?_, h2, h3, h4, h5, h6, h7, h8, by simp⟩
    simpa [State.closing, g, Pc.completed] using h1
  | hangup =>
    simp only [Sender.step, sender, Act.block, Act.put, List.append_nil, guarded_eq_some] at hs ⊢
    obtain ⟨g, rfl⟩ := hs
    refine ⟨?_, h2, h3, h4, h5, h6, h7, h8, by simp⟩
    simpa [State.closing, g, Pc.completed] using h1
  | read block =>
    simp only [Sender.step, sender, Act.block, Act.put, List.append_nil, guarded_eq_some] at hs ⊢
    obtain ⟨⟨g, hne, hdisk, hlen⟩, rfl⟩ := hs
    have hheld : s.held = none := h7.mpr (by simp [g])
    obtain ⟨ht, hc⟩ := hu.not_completed (by simp [g])
    have hidx : s.blockIdx = s.startOffset / lanBlockSize + ds.length := by simpa [hheld] using h6
    refine ⟨?_, ?_, ?_, ?_, ?_, by simp [hidx, Nat.add_assoc], by simp, by simp, h9⟩
    · cases hp : s.pc <;> simp_all [State.closing, Pc.completed, Pc.tail]
    · rw [frames_append, ← h2, ← hidx]
      simp [State.transit, hheld, frames, sealed, State.frame]
    · rw [h3, Disk.ofFile_take hdisk]
      simp
    · simp [h4, Nat.add_assoc]
    · intro d hd
      rcases List.mem_append.mp hd with hd | hd
      · exact h5 d hd
      · exact List.mem_singleton.mp hd ▸ hlen
  | push item =>
    simp only [Sender.step, sender, Act.block, Act.put, List.append_nil, guarded_eq_some] at hs ⊢
    obtain ⟨⟨g, hheld, -⟩, rfl⟩ := hs
    refine ⟨h1, ?_, h3, h4, h5, ?_, by simp, by simp, h9⟩
    · simpa [State.transit, hheld] using h2
    · simpa [hheld] using h6
  | endOfFile =>
    simp only [Sender.step, sender, Act.block, Act.put, List.append_nil, guarded_eq_some] at hs ⊢
    obtain ⟨⟨g, hdisk⟩, rfl⟩ := hs
    refine ⟨h1, h2, h3, h4, h5, h6, ?_, fun _ => (Disk.ofFile_iff.mp hdisk).2 rfl, h9⟩
    simpa [g] using h7
  | hashPrefix block =>
    simp only [Sender.step, sender, Act.block, Act.put, List.append_nil, guarded_eq_some] at hs ⊢
    obtain ⟨⟨g, -⟩, rfl⟩ := hs
    obtain ⟨ht, hc⟩ := hu.not_completed (by simp [g])
    refine ⟨?_, h2, h3, h4, h5, h6, h7, h8, h9⟩
    cases hp : s.pc <;> simp_all [State.closing, Pc.completed, Pc.tail]
  | pushFailed =>
    simp only [Sender.step, guarded_eq_some] at hs
    obtain ⟨⟨g, hpc⟩, -⟩ := hs
    exact absurd (hu.tail (by simp [hpc, Pc.tail])).1 (by simp [g])
  | _ =>
    simp only [Sender.step, sender, Act.block, Act.put, List.append_nil, guarded_eq_some] at hs ⊢
    obtain ⟨g, rfl⟩ := hs
    refine ⟨?_, h2, h3, h4, h5, h6, ?_, ?_, ?_⟩ <;> clear h2 h3 h4 h5 h6 <;> first
      | assumption
      | grind -ring -linarith [State.closing, Pc.completed]

theorem Undisturbed.start (pauses : Nat) (key : C.Key) (m : TransferMetadata C) (off : Nat) :
    Undisturbed [] (State.start pauses key m off) := by
  constructor <;> simp [State.start, Pc.tail]

theorem Streams.start (source : Bytes) (pauses : Nat) (key : C.Key) (m : TransferMetadata C)
    (off : Nat) :
    Streams source [] [] [] [] (State.start pauses key m off) := by
  constructor <;> simp [State.start, State.closing, Pc.completed, State.transit, frames, sealed]

/-- A sender that nothing disturbs never comes to a halt by itself. -/
theorem stands {source : Bytes} {ds : List Bytes} {sent i o : List (Frame C)} {s : State C}
    (h : Streams source ds sent i o s) (hu : Undisturbed i s) :
    (sender C (Disk.ofFile source)).Stands (fun a => a.clean) s := by
  cases hpc : s.pc with
  | check =>
    cases hp : s.paused with
    | true => exact .moves .resume _ rfl rfl rfl (guarded_eq_some.mpr ⟨hp, rfl⟩)
    | false =>
      exact .moves .proceed _ rfl rfl rfl
        (guarded_eq_some.mpr ⟨⟨hpc, by simp [hp], by simp [hu.cancelled]⟩, rfl⟩)
  | dequeue =>
    cases hch : s.channel with
    | cons item rest =>
      exact .moves (.dequeue item) _ rfl rfl rfl
        (guarded_eq_some.mpr ⟨⟨hpc, by simp [hu.cancelled], by simp [hch]⟩, rfl⟩)
    | nil =>
      cases hr : s.reader with
      | hashPrefix =>
        by_cases hend : s.startOffset ≤ s.processed ∨ Disk.ofFile source s.processed []
        · exact .moves .seek _ rfl rfl rfl (guarded_eq_some.mpr ⟨⟨hr, hend⟩, rfl⟩)
        · rw [not_or, not_le] at hend
          obtain ⟨b, hb⟩ := (Disk.ofFile_answer source s.processed).resolve_right hend.2
          exact .moves (.hashPrefix [b]) _ rfl rfl rfl
            (guarded_eq_some.mpr ⟨⟨hr, by simp, hb, hend.1, by simp [lanBlockSize]⟩, rfl⟩)
      | read =>
        rcases Disk.ofFile_answer source s.position with ⟨b, hb⟩ | hb
        · exact .moves (.read [b]) _ rfl rfl rfl
            (guarded_eq_some.mpr ⟨⟨hr, by simp, hb, by simp [lanBlockSize]⟩, rfl⟩)
        · exact .moves .endOfFile _ rfl rfl rfl (guarded_eq_some.mpr ⟨⟨hr, hb⟩, rfl⟩)
      | send =>
        cases hheld : s.held with
        | none => exact absurd hr (h.held.mp hheld)
        | some item =>
          exact .moves (.push item) _ rfl rfl rfl (guarded_eq_some.mpr
            ⟨⟨hr, hheld, by simp [hpc], by simp [hch, channelCapacity]⟩, rfl⟩)
      | done =>
        exact .moves .endOfData _ rfl rfl rfl (guarded_eq_some.mpr
          ⟨⟨hpc, by simp [hu.cancelled], hch, by simp [hr, ReaderPc.ended]⟩, rfl⟩)
      | failed detail => exact absurd hr (hu.reader detail)
  | write =>
    cases hw : s.wire with
    | none => exact absurd hpc (hu.wire.mp hw)
    | some item =>
      exact .moves (.write item) _ rfl rfl rfl (guarded_eq_some.mpr ⟨⟨hpc, hw⟩, rfl⟩)
  | sendError e => exact absurd hpc (hu.pc e)
  | join =>
    exact .moves .join _ rfl rfl rfl
      (guarded_eq_some.mpr ⟨⟨hpc, (hu.tail (by simp [hpc, Pc.tail])).1⟩, rfl⟩)
  | sendComplete => exact .moves .sendComplete _ rfl rfl rfl (guarded_eq_some.mpr ⟨hpc, rfl⟩)
  | awaitComplete =>
    exact .waits ⟨fun f => ⟨.reply f, _, rfl, rfl, rfl, guarded_eq_some.mpr ⟨hpc, rfl⟩⟩,
      .hangup, _, rfl, rfl, guarded_eq_some.mpr ⟨hpc, rfl⟩⟩
  | returned => exact .closed (by simp [sender, hpc])

def Pc.rank : Pc → Nat
  | .check => 17
  | .dequeue => 16
  | .write => 15
  | .join => 14
  | .sendError _ => 12
  | .sendComplete => 10
  | .awaitComplete => 5
  | .returned => 0

def ReaderPc.rank : ReaderPc → Nat
  | .hashPrefix => 2
  | .read | .send => 1
  | _ => 0

/-- What the sender still has to do, with a price for each byte that is not read. -/
def State.rank (source : Bytes) (s : State C) : Nat :=
  s.pc.rank + s.reader.rank + (s.startOffset - s.processed) + 30 * (source.length - s.position) +
    28 * s.held.toList.length + 26 * s.channel.length + 23 * s.wire.toList.length +
    2 * s.pauses + if s.paused then 1 else 0

theorem rank_lower {source : Bytes} {s t : State C} {a : Act C} (ha : a.clean)
    (hs : step (Disk.ofFile source) s a = some t) :
    t.rank source + Party.weight Frame.weight ((sender C (Disk.ofFile source)).sends s a) <
      s.rank source + Party.weight Frame.weight ((sender C (Disk.ofFile source)).recvs a) := by
  cases a with
  | readError detail => cases ha
  | writeError detail => cases ha
  | completeError detail => cases ha
  | cancel => cases ha
  | read data =>
    simp only [step, guarded_eq_some] at hs
    obtain ⟨⟨g, hne, hdisk, -⟩, rfl⟩ := hs
    have hlen := Disk.ofFile_length hdisk hne
    have hpos := List.length_pos_iff.mpr hne
    simp [State.rank, sender, g, ReaderPc.rank]
    omega
  | hashPrefix data =>
    simp only [step, guarded_eq_some] at hs
    obtain ⟨⟨g, hne, -, hle, -⟩, rfl⟩ := hs
    have hpos := List.length_pos_iff.mpr hne
    simp [State.rank, sender]
    omega
  | dequeue item =>
    simp only [step, guarded_eq_some] at hs
    obtain ⟨⟨g, -, hhead⟩, rfl⟩ := hs
    obtain ⟨rest, hrest⟩ := List.head?_eq_some_iff.mp hhead
    simp [State.rank, sender, g, hrest, Pc.rank]
    omega
  | write item =>
    simp only [step, guarded_eq_some] at hs
    obtain ⟨⟨g, hwire⟩, rfl⟩ := hs
    have := item.1.weight_le
    simp [State.rank, sender, g, hwire, Pc.rank]
    omega
  | seeCancel =>
    simp only [step, guarded_eq_some] at hs
    obtain ⟨⟨g | g, -⟩, rfl⟩ := hs <;> simp [State.rank, sender, g, Pc.rank]
  | seek =>
    simp only [step, guarded_eq_some] at hs
    obtain ⟨⟨g, -⟩, rfl⟩ := hs
    simp [State.rank, sender, g, ReaderPc.rank]
  | _ =>
    simp only [step, guarded_eq_some] at hs
    obtain ⟨g, rfl⟩ := hs
    simp_all [State.rank, sender, Pc.rank, ReaderPc.rank, Frame.weight, Frame.ofText] <;> omega

end Sender

end P2PTransfer.Lan
