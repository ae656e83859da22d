import P2PTransfer.Cli.Sender
import P2PTransfer.Storage.AsyncFile
import P2PTransfer.Storage.OutputPath
import P2PTransfer.Transfer.Chunks

/-!
# The receiver of the command line

`ReceiverHandler::run` after its reply: a task that reads the frames, one task for each
chunk, which decrypts it and writes it at its place, the task that hashes the chunks by
their numbers, and the loop, which acknowledges a chunk when its task has ended. The last
acknowledgement is followed by the verdict of the hasher, which counts from zero, and by a flush
of the output file, which may have put off the end of the last write until then.

## Main definitions

- `offsetOf` — where a chunk is written
- `Receiver.State`, `Receiver.Act`, `receiver` — the loop with its tasks as a party
- `Receiver.State.verdict` — what the function answers in the end
- `handlerAdmission` — how the function answers an offer
-/

namespace P2PTransfer.Cli

open Transition

variable {C : Primitives}

/-- The capacity of the channel from the task that reads. -/
def chunkCapacity : Nat := 32

inductive RecvError where
  | peer
  | malformed
  | network (detail : Text)
  | task (detail : Text)
  | reply (detail : Text)
  | flush (detail : Text)
deriving DecidableEq

/-- `recv_index * chunk_size as u64`, without a check. -/
def offsetOf (m : TransferMetadata C) (index : Nat) : Nat := index * m.chunkSize % 2 ^ 64

/-- No chunk of the job lies beyond the reach of `seek`. -/
def Job.Placed (x : Job C) : Prop :=
  ∀ j < x.metadata.totalChunks, j * x.metadata.chunkSize < 2 ^ 63

theorem Job.Placed.offset {x : Job C} (h : x.Placed) {j : Nat} (hj : j < x.metadata.totalChunks) :
    offsetOf x.metadata j = j * x.metadata.chunkSize :=
  Nat.mod_eq_of_lt ((h j hj).trans (by decide))

theorem Job.Placed.seekable {x : Job C} (h : x.Placed) {j : Nat}
    (hj : j < x.metadata.totalChunks) : (seekStart (offsetOf x.metadata j)).isSome := by
  rw [h.offset hj]
  exact seekStart_isSome.mpr (h j hj)

theorem Job.placed_of_partition {x : Job C} (hpart : Partition x.source x.metadata)
    (hsmall : x.metadata.totalChunks ≤ 2 ^ 32) : x.Placed :=
  fun _ hj => hpart.offset_lt hsmall hj

namespace Receiver

inductive Pc where
  | select
  | ack (index : Nat)
  | verify
  | flush
  | returned
deriving DecidableEq, Repr

/-- The loop has been left. -/
@[simp] def Pc.ended : Pc → Bool
  | .flush | .returned => true
  | _ => false

/-- `file` is the output file with what it has put off. A chunk goes from `decrypting` to
`writing`, `hashing` and `finished`, and from there to the loop. -/
structure State (C : Primitives) where
  key : C.Key
  metadata : TransferMetadata C
  file : AsyncFile
  pc : Pc := .select
  reading : Bool := true
  channel : List (Except Text (Frame C)) := []
  decrypting : List (Nat × Bool × Bytes) := []
  writing : List (Nat × Bytes) := []
  hashing : List (Nat × Bytes) := []
  finished : List Nat := []
  failed : List Text := []
  hashQueue : List (Nat × Bytes) := []
  buffered : Reorder Bytes := {}
  hashed : Bytes := []
  chunksReceived : Nat
  isValid : Option Bool := none
  result : Option (Except RecvError Unit) := none

/-- The loop after the reply, over what the output file holds. -/
def State.start (key : C.Key) (metadata : TransferMetadata C) (existing : Bytes) : State C where
  key := key
  metadata := metadata
  file := { content := setLen existing metadata.fileSize }
  chunksReceived := if metadata.isResume then startChunk metadata else 0

inductive Act (C : Primitives) where
  | readFrame (f : Frame C)
  | hangup
  | readError (detail : Text)
  | spawn (f : Frame C) (item : Nat × Bool × Bytes)
  | badFrame (f : Frame C)
  | readFailed (detail : Text)
  | decrypted (item : Nat × Bool × Bytes) (data : Bytes)
  | decryptError (item : Nat × Bool × Bytes) (detail : Text)
  | overflow (item : Nat × Bytes) (detail : Text)
  | seekError (item : Nat × Bytes) (detail : Text)
  | written (item : Nat × Bytes)
  | writeError (item : Nat × Bytes) (n : Nat) (detail : Text)
  | lastError (item : Nat × Bytes) (detail : Text)
  | landed
  | lost (n : Nat) (detail : Text)
  | handed (item : Nat × Bytes)
  | hash (item : Nat × Bytes)
  | join (index : Nat)
  | joinError (detail : Text)
  | ack
  | ackError (detail : Text)
  | verdict
  | verdictLost
  | flush
  | flushFailed (detail : Text)

/-- The actions of a run without faults. -/
def Act.clean : Act C → Bool
  | .readError _ | .writeError _ _ _ | .lastError _ _ | .lost _ _ | .ackError _ | .verdictLost
  | .flushFailed _ => false
  | _ => true

/-- The actions of a run in which no write fails after it has been answered. -/
def Act.lossless : Act C → Bool
  | .lost _ _ => false
  | _ => true

theorem Act.lossless_of_clean {b : Act C} (h : b.clean = true) : b.lossless = true := by
  cases b with
  | lost n detail => cases h
  | _ => rfl

/-- The number, the flag and the encrypted data of a chunk frame. -/
def chunkOf (f : Frame C) : Option (Nat × Bool × Bytes) :=
  match f.payload with
  | .chunk index compressed data => if f.tag = tagChunk then some (index, compressed, data) else none
  | _ => none

theorem payload_of_chunkOf {f : Frame C} {item : Nat × Bool × Bytes} (h : chunkOf f = some item) :
    ∃ compressed data, f.payload = .chunk item.1 compressed data := by
  unfold chunkOf at h
  split at h
  · next index compressed data heq =>
    obtain ⟨-, hitem⟩ := Option.ite_none_right_eq_some.mp h
    obtain rfl := Option.some.inj hitem
    exact ⟨compressed, data, heq⟩
  · cases h

def frameError (f : Frame C) : RecvError := if f.tag = tagError then .peer else .malformed

/-- What the task of a chunk makes of its data. -/
def State.open (s : State C) (item : Nat × Bool × Bytes) : Option Bytes :=
  (C.decrypt s.key (buildNonce s.metadata.noncePrefix item.1) item.2.2).bind fun data =>
    if item.2.1 then C.decompress data else some data

/-- The answer of the hasher. -/
def State.valid (s : State C) : Bool :=
  decide (s.buffered.next = s.metadata.totalChunks ∧ C.blake3 s.hashed = s.metadata.checksum)

def State.verdict (s : State C) : Frame C :=
  if s.valid then ⟨tagComplete, .digest s.metadata.checksum⟩
  else Frame.ofText tagError "Checksum mismatch".toList

/-- All the tasks of chunks have ended, and the hasher has taken what they handed over. -/
def State.settled (s : State C) : Prop :=
  s.decrypting = [] ∧ s.writing = [] ∧ s.hashing = [] ∧ s.hashQueue = []

instance (s : State C) : Decidable s.settled := inferInstanceAs (Decidable (_ ∧ _ ∧ _ ∧ _))

def ackFrame (index : Nat) : Frame C := ⟨tagChunkAck, .index (index % 2 ^ 32)⟩

/-- The task of the chunk can seek its place and begin to write. -/
def State.Writes (s : State C) (item : Nat × Bytes) : Prop :=
  item ∈ s.writing ∧ (seekStart (offsetOf s.metadata item.1)).isSome ∧ s.file.Accepts item.2

instance (s : State C) (item : Nat × Bytes) : Decidable (s.Writes item) :=
  inferInstanceAs (Decidable (_ ∧ _ ∧ _))

/-- One step. The reader task may hold one more than the channel does, and the tasks of the
chunks may outlive the loop. At a product that is too large a build with overflow checks panics,
and one without goes on with what is left of it. -/
def step (s : State C) : Act C → Option (State C)
  -- the task that reads
  | .readFrame f => guarded (s.reading ∧ s.channel.length ≤ chunkCapacity)
      { s with reading := !f.oversized,
               channel := s.channel ++
                 [if f.oversized then .error "Oversized message".toList else .ok f] }
  | .hangup => guarded (s.reading ∧ s.channel.length ≤ chunkCapacity)
      { s with reading := false,
               channel := s.channel ++ [.error "Failed to read message length".toList] }
  | .readError detail => guarded (s.reading ∧ s.channel.length ≤ chunkCapacity)
      { s with reading := false, channel := s.channel ++ [.error detail] }
  -- the tasks of the chunks and the hasher
  | .decrypted item data => guarded (item ∈ s.decrypting ∧ s.open item = some data)
      { s with decrypting := s.decrypting.erase item, writing := s.writing ++ [(item.1, data)] }
  | .decryptError item detail => guarded (item ∈ s.decrypting ∧ s.open item = none)
      { s with decrypting := s.decrypting.erase item, failed := s.failed ++ [detail] }
  | .overflow item detail => guarded (item ∈ s.writing ∧ 2 ^ 64 ≤ item.1 * s.metadata.chunkSize)
      { s with writing := s.writing.erase item, failed := s.failed ++ [detail] }
  | .seekError item detail => guarded (item ∈ s.writing ∧
        seekStart (offsetOf s.metadata item.1) = none ∧ s.file.inflight = none)
      { s with writing := s.writing.erase item, failed := s.failed ++ [detail] }
  | .written item => guarded (s.Writes item)
      { s with writing := s.writing.erase item, hashing := s.hashing ++ [item],
               file := s.file.write (offsetOf s.metadata item.1) item.2 }
  | .writeError item n detail => guarded (s.Writes item ∧ n < AsyncFile.ahead item.2)
      { s with writing := s.writing.erase item, failed := s.failed ++ [detail],
               file := s.file.fail (offsetOf s.metadata item.1) item.2 n }
  -- what an earlier write has put off
  | .lastError item detail => guarded (item ∈ s.writing ∧ item.2 ≠ [] ∧
        (seekStart (offsetOf s.metadata item.1)).isSome ∧ s.file.inflight = none ∧
        s.file.lastWriteErr = some detail)
      { s with writing := s.writing.erase item, failed := s.failed ++ [detail],
               file := { s.file with lastWriteErr := none } }
  | .landed => guarded (s.file.inflight ≠ none) { s with file := s.file.land }
  | .lost n detail => guarded (s.file.inflight.any fun w => n < w.2.length)
      { s with file := s.file.lose n detail }
  | .handed item => guarded (item ∈ s.hashing)
      { s with hashing := s.hashing.erase item, finished := s.finished ++ [item.1],
               hashQueue := s.hashQueue ++ [item] }
  | .hash item => guarded (s.hashQueue.head? = some item)
      { s with hashQueue := s.hashQueue.tail,
               buffered := (s.buffered.insert item.1 item.2).release.2,
               hashed := s.hashed ++ (s.buffered.insert item.1 item.2).release.1.flatten }
  -- the loop
  | .spawn f item => guarded (s.pc = .select ∧ s.channel.head? = some (.ok f) ∧
        chunkOf f = some item)
      { s with channel := s.channel.tail, decrypting := s.decrypting ++ [item] }
  | .badFrame f => guarded (s.pc = .select ∧ s.channel.head? = some (.ok f) ∧ chunkOf f = none)
      { s with channel := s.channel.tail, pc := .returned, result := some (.error (frameError f)) }
  | .readFailed detail => guarded (s.pc = .select ∧ s.channel.head? = some (.error detail))
      { s with channel := s.channel.tail, pc := .returned,
               result := some (.error (.network detail)) }
  | .join index => guarded (s.pc = .select ∧ index ∈ s.finished)
      { s with finished := s.finished.erase index, pc := .ack index }
  | .joinError detail => guarded (s.pc = .select ∧ detail ∈ s.failed)
      { s with failed := s.failed.erase detail, pc := .returned,
               result := some (.error (.task detail)) }
  | .ack => match s.pc with
    | .ack _ => some
        { s with chunksReceived := s.chunksReceived + 1,
                 pc := if s.chunksReceived + 1 = s.metadata.totalChunks then .verify else .select }
    | _ => none
  | .ackError detail => match s.pc with
    | .ack _ => some { s with pc := .returned, result := some (.error (.reply detail)) }
    | _ => none
  | .verdict | .verdictLost => guarded (s.pc = .verify ∧ s.settled)
      { s with pc := .flush, isValid := some s.valid }
  | .flush => guarded (s.pc = .flush ∧ s.file.inflight = none ∧ s.file.lastWriteErr = none)
      { s with pc := .returned, result := some (.ok ()) }
  | .flushFailed detail => guarded (s.pc = .flush ∧ s.file.lastWriteErr = some detail)
      { s with pc := .returned, result := some (.error (.flush detail)),
               file := { s.file with lastWriteErr := none } }

end Receiver

/-- `ReceiverHandler::run` after the reply. -/
def receiver (C : Primitives) : Party (Receiver.State C) (Receiver.Act C) (Frame C) where
  step := Receiver.step
  recvs
    | .readFrame f => [f]
    | _ => []
  sends s
    | .ack => match s.pc with
      | .ack index => [Receiver.ackFrame index]
      | _ => []
    | .verdict => [s.verdict]
    | _ => []
  hangup
    | .hangup => true
    | _ => false
  closed s := decide (s.pc = .returned)

/-- `ReceiverHandler::run` up to the reply, for a connection that announces a transfer. -/
def handlerAdmission (C : Primitives) (secret : C.Secret) (fs : Files) (outputDir : Text) :
    Admission C (Receiver.State C) where
  secret := secret
  asks := false
  reply _ := Frame.ofText tagMetadata "ACCEPT".toList
  start key m := Receiver.State.start key m ((fs (outputPath outputDir m.fileName)).getD [])
  complaint f expected := if f.tag = tagError then [] else
    [Frame.ofText tagError
      (if expected = "Expected METADATA".toList then "Expected METADATA or SESSION_JOIN".toList
       else expected)]

namespace Receiver

/-- The hasher has the chunk, or its task is about to hand it over. -/
def State.stored (s : State C) (j : Nat) : Prop :=
  j < s.buffered.next ∨
    0 < tally Prod.fst s.hashing j + tally Prod.fst s.hashQueue j +
      tally Prod.fst s.buffered.waiting j

instance (s : State C) (j : Nat) : Decidable (s.stored j) :=
  inferInstanceAs (Decidable (_ ∨ _))

/-- The frames that a receiver is given are of a kind, and so is what it makes of them. -/
structure Carries (s₀ : State C) (given : Frame C → Prop) (taken : Nat × Bool × Bytes → Prop)
    (made : Nat × Bytes → Prop) (chunks : Nat → Bytes) (s : State C) : Prop where
  key : s.key = s₀.key
  metadata : s.metadata = s₀.metadata
  channel : ∀ f, .ok f ∈ s.channel → given f
  decrypting : ∀ item ∈ s.decrypting, taken item
  writing : ∀ item ∈ s.writing, made item
  hashing : ∀ item ∈ s.hashing, made item
  hashQueue : ∀ item ∈ s.hashQueue, made item
  buffered : s.buffered.Holds chunks

section Carries

variable {s₀ s t : State C} {given : Frame C → Prop} {taken : Nat × Bool × Bytes → Prop}
  {made : Nat × Bytes → Prop} {chunks : Nat → Bytes} {b : Act C}

theorem Carries.start (key : C.Key) (m : TransferMetadata C) (existing : Bytes) :
    Carries (State.start key m existing) given taken made chunks
      (State.start key m existing) where
  key := rfl
  metadata := rfl
  channel f h := by cases h
  decrypting item h := by cases h
  writing item h := by cases h
  hashing item h := by cases h
  hashQueue item h := by cases h
  buffered item h := by cases h

theorem Carries.open_eq (h : Carries s₀ given taken made chunks s) (item : Nat × Bool × Bytes) :
    s.open item = s₀.open item := by
  rw [State.open, State.open, h.key, h.metadata]

/-- The items that go out to the hash, and what stays. -/
theorem Carries.hash (h : Carries s₀ given taken made chunks s)
    (hchunks : ∀ item, made item → item.2 = chunks item.1) {item : Nat × Bytes}
    (hhead : s.hashQueue.head? = some item) :
    (s.buffered.insert item.1 item.2).Holds chunks :=
  h.buffered.insert (hchunks item (h.hashQueue item (List.mem_of_mem_head? hhead)))

theorem Carries.step (h : Carries s₀ given taken made chunks s)
    (htaken : ∀ f item, given f → chunkOf f = some item → taken item)
    (hmade : ∀ item data, taken item → s₀.open item = some data → made (item.1, data))
    (hchunks : ∀ item, made item → item.2 = chunks item.1)
    (hin : ∀ f ∈ (receiver C).recvs b, given f) (hs : Receiver.step s b = some t) :
    Carries s₀ given taken made chunks t := by
  have hopen := h.open_eq
  have hhash := @Carries.hash C s₀ s given taken made chunks h hchunks
  obtain ⟨h1, h2, h3, h4, h5, h6, h7, h8⟩ := h
  cases b with
  | readFrame f =>
    obtain ⟨-, rfl⟩ := guarded_eq_some.mp hs
    refine ⟨h1, h2, fun g hg => ?_, h4, h5, h6, h7, h8⟩
    rcases List.mem_append.mp hg with hg | hg
    · exact h3 g hg
    · have hg := List.mem_singleton.mp hg
      split at hg
      · cases hg
      · cases hg
        exact hin _ (by simp [receiver])
  | hangup =>
    obtain ⟨-, rfl⟩ := guarded_eq_some.mp hs
    exact ⟨h1, h2, fun g hg => h3 g (by simpa using hg), h4, h5, h6, h7, h8⟩
  | readError detail =>
    obtain ⟨-, rfl⟩ := guarded_eq_some.mp hs
    exact ⟨h1, h2, fun g hg => h3 g (by simpa using hg), h4, h5, h6, h7, h8⟩
  | spawn f item =>
    obtain ⟨⟨-, hhead, hitem⟩, rfl⟩ := guarded_eq_some.mp hs
    refine ⟨h1, h2, fun g hg => h3 g (List.mem_of_mem_tail hg), fun y hy => ?_, h5, h6, h7, h8⟩
    rcases List.mem_append.mp hy with hy | hy
    · exact h4 y hy
    · rw [List.mem_singleton.mp hy]
      exact htaken f item (h3 f (List.mem_of_mem_head? hhead)) hitem
  | badFrame f =>
    obtain ⟨-, rfl⟩ := guarded_eq_some.mp hs
    exact ⟨h1, h2, fun g hg => h3 g (List.mem_of_mem_tail hg), h4, h5, h6, h7, h8⟩
  | readFailed detail =>
    obtain ⟨-, rfl⟩ := guarded_eq_some.mp hs
    exact ⟨h1, h2, fun g hg => h3 g (List.mem_of_mem_tail hg), h4, h5, h6, h7, h8⟩
  | decrypted item data =>
    obtain ⟨⟨hmem, hdata⟩, rfl⟩ := guarded_eq_some.mp hs
    refine ⟨h1, h2, h3, fun y hy => h4 y (List.mem_of_mem_erase hy), fun y hy => ?_, h6, h7, h8⟩
    rcases List.mem_append.mp hy with hy | hy
    · exact h5 y hy
    · rw [List.mem_singleton.mp hy]
      exact hmade item data (h4 item hmem) ((hopen item).symm.trans hdata)
  | decryptError item detail =>
    obtain ⟨-, rfl⟩ := guarded_eq_some.mp hs
    exact ⟨h1, h2, h3, fun y hy => h4 y (List.mem_of_mem_erase hy), h5, h6, h7, h8⟩
  | written item =>
    obtain ⟨⟨hmem, -⟩, rfl⟩ := guarded_eq_some.mp hs
    refine ⟨h1, h2, h3, h4, fun y hy => h5 y (List.mem_of_mem_erase hy), fun y hy => ?_, h7, h8⟩
    rcases List.mem_append.mp hy with hy | hy
    · exact h6 y hy
    · exact List.mem_singleton.mp hy ▸ h5 item hmem
  | overflow | seekError | writeError | lastError =>
    obtain ⟨-, rfl⟩ := guarded_eq_some.mp hs
    exact ⟨h1, h2, h3, h4, fun y hy => h5 y (List.mem_of_mem_erase hy), h6, h7, h8⟩
  | handed item =>
    obtain ⟨hmem, rfl⟩ := guarded_eq_some.mp hs
    refine ⟨h1, h2, h3, h4, h5, fun y hy => h6 y (List.mem_of_mem_erase hy), fun y hy => ?_, h8⟩
    rcases List.mem_append.mp hy with hy | hy
    · exact h7 y hy
    · exact List.mem_singleton.mp hy ▸ h6 item hmem
  | hash item =>
    obtain ⟨hhead, rfl⟩ := guarded_eq_some.mp hs
    obtain ⟨k, -, -, hholds, -⟩ := Reorder.drain_spec _ (hhash hhead)
    exact ⟨h1, h2, h3, h4, h5, h6, fun y hy => h7 y (List.mem_of_mem_tail hy), hholds⟩
  | ack =>
    simp only [Receiver.step] at hs
    split at hs
    · obtain rfl := Option.some.inj hs
      exact ⟨h1, h2, h3, h4, h5, h6, h7, h8⟩
    · cases hs
  | ackError detail =>
    simp only [Receiver.step] at hs
    split at hs
    · obtain rfl := Option.some.inj hs
      exact ⟨h1, h2, h3, h4, h5, h6, h7, h8⟩
    · cases hs
  | _ =>
    simp only [Receiver.step, guarded_eq_some] at hs
    obtain ⟨-, rfl⟩ := hs
    exact ⟨h1, h2, h3, h4, h5, h6, h7, h8⟩

end Carries

/-- A chunk of the source with its number. -/
def Chunk (x : Job C) (item : Nat × Bytes) : Prop :=
  item.1 < x.metadata.totalChunks ∧ item.2 = prepareChunk x.source x.metadata item.1

/-- Everything that the receiver works on is a chunk of the source. -/
structure Genuine (x : Job C) (s : State C) : Prop where
  key : s.key = x.key
  metadata : s.metadata = x.metadata
  channel : ∀ f, .ok f ∈ s.channel → ∃ j < x.metadata.totalChunks, f = x.chunkFrame j
  decrypting : ∀ item ∈ s.decrypting, item.1 < x.metadata.totalChunks ∧
    s.open item = some (prepareChunk x.source x.metadata item.1)
  writing : ∀ item ∈ s.writing, Chunk x item
  hashing : ∀ item ∈ s.hashing, Chunk x item
  hashQueue : ∀ item ∈ s.hashQueue, Chunk x item
  buffered : s.buffered.Holds (prepareChunk x.source x.metadata)

theorem Genuine.start (x : Job C) (existing : Bytes) :
    Genuine x (State.start x.key x.metadata existing) where
  key := rfl
  metadata := rfl
  channel f h := by cases h
  decrypting item h := by cases h
  writing item h := by cases h
  hashing item h := by cases h
  hashQueue item h := by cases h
  buffered item h := by cases h

/-- What a task makes of the frame of a chunk. -/
theorem Genuine.open_chunkFrame {x : Job C} {s : State C} (h : Genuine x s) {j : Nat}
    (hj : j < 2 ^ 32) {item : Nat × Bool × Bytes} (hitem : chunkOf (x.chunkFrame j) = some item) :
    item.1 = j ∧ s.open item = some (prepareChunk x.source x.metadata j) := by
  unfold Job.chunkFrame Job.frame at hitem
  unfold State.open
  rw [h.key, h.metadata]
  cases hc : x.compressed (prepareChunk x.source x.metadata j) with
  | none =>
    simp only [hc, chunkOf, Frame.ofChunk, if_true, Option.some.injEq] at hitem
    subst hitem
    refine ⟨Nat.mod_eq_of_lt hj, ?_⟩
    simp only [Nat.mod_eq_of_lt hj, C.decrypt_encrypt, Option.bind_some, Bool.false_eq_true, if_false]
  | some c =>
    simp only [hc, chunkOf, Frame.ofChunk, if_true, Option.some.injEq] at hitem
    subst hitem
    refine ⟨Nat.mod_eq_of_lt hj, ?_⟩
    have hcomp : C.compress x.level (prepareChunk x.source x.metadata j) = some c := by
      unfold Job.compressed at hc
      split at hc
      · exact hc
      · cases hc
    simp only [Nat.mod_eq_of_lt hj, C.decrypt_encrypt, Option.bind_some, if_true]
    exact C.decompress_compress _ _ _ hcomp

theorem chunkOf_chunkFrame (x : Job C) (j : Nat) : chunkOf (x.chunkFrame j) ≠ none := by
  unfold Job.chunkFrame Job.frame
  split <;> simp [chunkOf, Frame.ofChunk]

/-- The items that go out to the hash, and what stays. -/
theorem Genuine.hash {x : Job C} {s : State C} (h : Genuine x s) {item : Nat × Bytes}
    (hhead : s.hashQueue.head? = some item) :
    (s.buffered.insert item.1 item.2).Holds (prepareChunk x.source x.metadata) :=
  h.buffered.insert (h.hashQueue item (List.mem_of_mem_head? hhead)).2

theorem Genuine.step {x : Job C} {s t : State C} {b : Act C} (h : Genuine x s)
    (hsmall : x.metadata.totalChunks ≤ 2 ^ 32)
    (hin : ∀ f ∈ (receiver C).recvs b, ∃ j < x.metadata.totalChunks, f = x.chunkFrame j)
    (hs : step s b = some t) : Genuine x t := by
  have hcarries : Carries s (fun f => ∃ j < x.metadata.totalChunks, f = x.chunkFrame j)
      (fun item => item.1 < x.metadata.totalChunks ∧
        s.open item = some (prepareChunk x.source x.metadata item.1)) (Chunk x)
      (prepareChunk x.source x.metadata) s :=
    ⟨rfl, rfl, h.channel, h.decrypting, h.writing, h.hashing, h.hashQueue, h.buffered⟩
  have ht := hcarries.step
    (fun f item hf hitem => by
      obtain ⟨j, hj, rfl⟩ := hf
      obtain ⟨rfl, hdata⟩ := h.open_chunkFrame (by omega) hitem
      exact ⟨hj, hdata⟩)
    (fun item data hitem hdata => ⟨hitem.1, Option.some.inj (hdata.symm.trans hitem.2)⟩)
    (fun item hitem => hitem.2) hin hs
  exact ⟨ht.key.trans h.key, ht.metadata.trans h.metadata, ht.channel,
    fun item hitem => ht.open_eq item ▸ ht.decrypting item hitem, ht.writing, ht.hashing,
    ht.hashQueue, ht.buffered⟩

/-- The hasher forgets no number. -/
theorem stored_release {α : Type} {f : Nat → α} {r : Reorder α} (h : r.Holds f) (j : Nat) :
    (j < r.release.2.next ∨ 0 < tally Prod.fst r.release.2.waiting j) ↔
      (j < r.next ∨ 0 < tally Prod.fst r.waiting j) := by
  obtain ⟨k, -, hnext, -, htally, hpos⟩ := Reorder.drain_spec r.waiting.length h
  rw [Reorder.release, hnext, htally]
  have := hpos j
  split_ifs <;> omega

/-- A chunk is stored when its task has written it, and from then on. -/
theorem stored_iff {f : Nat → Bytes} {s t : State C} {b : Act C}
    (hholds : ∀ item, s.hashQueue.head? = some item →
      (s.buffered.insert item.1 item.2).Holds f)
    (hs : Receiver.step s b = some t) (j : Nat) :
    t.stored j ↔ s.stored j ∨ ∃ item, b = .written item ∧ item.1 = j := by
  cases b with
  | written item =>
    obtain ⟨hmem, rfl⟩ := guarded_eq_some.mp hs
    simp only [State.stored, tally_append, tally_cons, tally_nil, Act.written.injEq,
      exists_eq_left']
    split_ifs <;> omega
  | handed item =>
    obtain ⟨hmem, rfl⟩ := guarded_eq_some.mp hs
    have := tally_erase Prod.fst j hmem
    simp only [State.stored, tally_append, tally_cons, tally_nil, reduceCtorEq, false_and,
      exists_false, or_false]
    omega
  | hash item =>
    have hholds := stored_release (hholds item (guarded_eq_some.mp hs).1) j
    obtain ⟨hhead, rfl⟩ := guarded_eq_some.mp hs
    obtain ⟨rest, hqueue⟩ := List.head?_eq_some_iff.mp hhead
    rw [Reorder.tally_insert] at hholds
    simp only [State.stored, hqueue, List.tail_cons, tally_cons, reduceCtorEq, false_and,
      exists_false, or_false]
    have hnext : (s.buffered.insert item.1 item.2).next = s.buffered.next := rfl
    rw [hnext] at hholds
    by_cases hj : item.1 = j
    · rw [if_pos hj.symm] at hholds
      rw [if_pos hj]
      omega
    · rw [if_neg (Ne.symm hj)] at hholds
      rw [if_neg hj]
      omega
  | ack =>
    simp only [Receiver.step] at hs
    split at hs
    · obtain rfl := Option.some.inj hs
      simp [State.stored]
    · cases hs
  | ackError detail =>
    simp only [Receiver.step] at hs
    split at hs
    · obtain rfl := Option.some.inj hs
      simp [State.stored]
    · cases hs
  | _ =>
    simp only [Receiver.step, guarded_eq_some] at hs
    obtain ⟨-, rfl⟩ := hs
    simp [State.stored]

theorem Genuine.stored_iff {x : Job C} {s t : State C} {b : Act C} (h : Genuine x s)
    (hs : Receiver.step s b = some t) (j : Nat) :
    t.stored j ↔ s.stored j ∨ ∃ item, b = .written item ∧ item.1 = j :=
  Receiver.stored_iff (fun _ => h.hash) hs j

section File

variable {content : Bytes} {s t : State C} {b : Act C}

/-- What the tasks write are parts of a content at their places, so the file stays one that is
being filled with it, and keeps what the disk has of it. -/
theorem file_step (h : s.file.Over content)
    (hparts : ∀ item ∈ s.writing, item.2 <+: content.drop (offsetOf s.metadata item.1))
    (hs : Receiver.step s b = some t) : t.file.Over content ∧
      ∀ p : Nat, s.file.content[p]? = content[p]? → t.file.content[p]? = content[p]? := by
  cases b with
  | written item =>
    obtain ⟨⟨hmem, -⟩, rfl⟩ := guarded_eq_some.mp hs
    exact ⟨h.write (hparts item hmem), fun p => h.content_write (hparts item hmem)⟩
  | writeError item n detail =>
    obtain ⟨⟨⟨hmem, -⟩, -⟩, rfl⟩ := guarded_eq_some.mp hs
    exact ⟨h.fail (hparts item hmem) n, fun p => h.content_fail (hparts item hmem)⟩
  | landed =>
    obtain ⟨-, rfl⟩ := guarded_eq_some.mp hs
    exact ⟨h.land, fun p => h.content_land⟩
  | lost n detail =>
    obtain ⟨-, rfl⟩ := guarded_eq_some.mp hs
    exact ⟨h.lose n detail, fun p => h.content_lose⟩
  | lastError | flushFailed =>
    obtain ⟨-, rfl⟩ := guarded_eq_some.mp hs
    exact ⟨⟨h.length, h.part⟩, fun p hp => hp⟩
  | ack =>
    simp only [Receiver.step] at hs
    split at hs
    · obtain rfl := Option.some.inj hs
      exact ⟨h, fun p hp => hp⟩
    · cases hs
  | ackError detail =>
    simp only [Receiver.step] at hs
    split at hs
    · obtain rfl := Option.some.inj hs
      exact ⟨h, fun p hp => hp⟩
    · cases hs
  | _ =>
    obtain ⟨-, rfl⟩ := guarded_eq_some.mp hs
    exact ⟨h, fun p hp => hp⟩

/-- Unless a write is lost, there is no error to report. -/
theorem clear_step (h : s.file.lastWriteErr = none) (hb : b.lossless)
    (hs : Receiver.step s b = some t) : t.file.lastWriteErr = none := by
  cases b with
  | lost n detail => cases hb
  | written item =>
    obtain ⟨-, rfl⟩ := guarded_eq_some.mp hs
    exact (AsyncFile.lastWriteErr_write ..).trans h
  | lastError | flushFailed =>
    obtain ⟨-, rfl⟩ := guarded_eq_some.mp hs
    rfl
  | ack | ackError =>
    simp only [Receiver.step] at hs
    split at hs
    · obtain rfl := Option.some.inj hs
      exact h
    · cases hs
  | _ =>
    obtain ⟨-, rfl⟩ := guarded_eq_some.mp hs
    exact h

/-- Unless a write is lost, the file keeps what it has been given, and a chunk that is written
is given. -/
theorem given_step (h : s.file.Over content)
    (hparts : ∀ item ∈ s.writing, item.2 <+: content.drop (offsetOf s.metadata item.1))
    (hb : b.lossless) (hs : Receiver.step s b = some t) {p : Nat}
    (hp : s.file.given[p]? = content[p]? ∨ ∃ item, b = .written item ∧
      offsetOf s.metadata item.1 ≤ p ∧ p < offsetOf s.metadata item.1 + item.2.length) :
    t.file.given[p]? = content[p]? := by
  cases b with
  | lost n detail => cases hb
  | written item =>
    obtain ⟨⟨hmem, -, hidle, -⟩, rfl⟩ := guarded_eq_some.mp hs
    refine h.given_write hidle (hparts item hmem) (hp.imp_right ?_)
    rintro ⟨other, hother, hin⟩
    cases hother
    exact hin
  | writeError item n detail =>
    obtain ⟨⟨⟨hmem, -, hidle, -⟩, -⟩, rfl⟩ := guarded_eq_some.mp hs
    exact h.given_fail hidle (hparts item hmem) (hp.resolve_right (by simp))
  | ack =>
    simp only [Receiver.step] at hs
    split at hs
    · obtain rfl := Option.some.inj hs
      exact hp.resolve_right (by simp)
    · cases hs
  | ackError detail =>
    simp only [Receiver.step] at hs
    split at hs
    · obtain rfl := Option.some.inj hs
      exact hp.resolve_right (by simp)
    · cases hs
  | _ =>
    obtain ⟨-, rfl⟩ := guarded_eq_some.mp hs
    exact hp.resolve_right (by simp)

end File

/-- The file has been given the source's bytes where it had them before, and wherever a chunk
has been written. -/
structure Stores (x : Job C) (base : Nat → Prop) (s : State C) : Prop where
  disk : s.file.Over x.source
  file : ∀ p < x.source.length, base p ∨ s.stored (p / x.metadata.chunkSize) →
    s.file.given[p]? = x.source[p]?

theorem Stores.start {x : Job C} (hpart : Partition x.source x.metadata) (existing : Bytes) :
    Stores x (fun p => existing[p]? = x.source[p]?) (State.start x.key x.metadata existing) where
  disk := .idle (by rw [State.start, length_setLen, hpart.fileSize]) rfl
  file p hp h := by
    rcases h with h | h | h
    · have hlen : p < existing.length := by
        rw [List.getElem?_eq_getElem hp] at h
        exact (List.getElem?_eq_some_iff.mp h).1
      exact (getElem?_setLen (by rw [hpart.fileSize]; exact hp) hlen).trans h
    · cases h
    · cases h

/-- What the tasks write are parts of the source at their places. -/
theorem Genuine.parts {x : Job C} {s : State C} (h : Genuine x s)
    (hpart : Partition x.source x.metadata) (hplaced : x.Placed) :
    ∀ item ∈ s.writing, item.2 <+: x.source.drop (offsetOf s.metadata item.1) := by
  intro item hmem
  obtain ⟨hlt, hdata⟩ := h.writing item hmem
  rw [h.metadata, hplaced.offset hlt, hdata]
  exact hpart.prepareChunk_part item.1

/-- The tasks find the places of their chunks. -/
theorem Genuine.in_reach {x : Job C} {s : State C} (h : Genuine x s) (hplaced : x.Placed)
    {item : Nat × Bytes} (hmem : item ∈ s.writing) :
    item.1 * s.metadata.chunkSize < 2 ^ 63 ∧ seekStart (offsetOf s.metadata item.1) ≠ none := by
  have hlt := (h.writing item hmem).1
  rw [h.metadata]
  exact ⟨hplaced item.1 hlt, Option.isSome_iff_ne_none.mp (hplaced.seekable hlt)⟩

theorem Stores.step {x : Job C} {base : Nat → Prop} {s t : State C} {b : Act C}
    (h : Stores x base s) (hg : Genuine x s) (hpart : Partition x.source x.metadata)
    (hplaced : x.Placed) (hb : b.lossless) (hs : Receiver.step s b = some t) :
    Stores x base t := by
  have hparts := hg.parts hpart hplaced
  refine ⟨(file_step h.disk hparts hs).1, fun p hp hgood => ?_⟩
  apply given_step h.disk hparts hb hs
  rw [hg.stored_iff hs] at hgood
  rcases hgood with hbase | hst | ⟨item, rfl, hj⟩
  · exact .inl (h.file p hp (.inl hbase))
  · exact .inl (h.file p hp (.inr hst))
  · obtain ⟨⟨hmem, -⟩, -⟩ := guarded_eq_some.mp hs
    obtain ⟨hlt, hdata⟩ := hg.writing item hmem
    refine .inr ⟨item, rfl, ?_⟩
    rw [hg.metadata, hplaced.offset hlt, hdata]
    exact hpart.mem_chunk hp hj.symm

/-- The chunk that is being acknowledged. -/
def Pc.pending : Pc → List Nat
  | .ack index => [index]
  | _ => []

/-- Where a receiver is with the frames of a sender that sends each chunk once: `m` of them
have been given to a task, and those in `acked` have been acknowledged. -/
structure Accounts (x : Job C) (m : Nat) (acked : List Nat) (i o : List (Frame C))
    (s : State C) : Prop where
  input : i = (List.range' (startChunk x.metadata) i.length).map x.chunkFrame
  bound : startChunk x.metadata + i.length ≤ x.metadata.totalChunks
  taken : m ≤ i.length
  queue : s.pc.ended = false → s.reading = true ∧ s.channel = (i.drop m).map .ok
  places : ∀ j, tally Prod.fst s.decrypting j + tally Prod.fst s.writing j +
    tally Prod.fst s.hashing j + tally id s.finished j + tally id s.pc.pending j +
    tally id acked j =
      if startChunk x.metadata ≤ j ∧ j < startChunk x.metadata + m then 1 else 0
  handed : ∀ j, tally Prod.fst s.hashQueue j + tally Prod.fst s.buffered.waiting j +
    (if j < s.buffered.next then 1 else 0) =
      tally id s.finished j + tally id s.pc.pending j + tally id acked j
  out : o = acked.map ackFrame ++ if s.pc.ended then [s.verdict] else []
  count : s.chunksReceived = startChunk x.metadata + acked.length
  failed : s.failed = []
  hashed : s.hashed =
    ((List.range s.buffered.next).map (prepareChunk x.source x.metadata)).flatten
  idle : s.buffered.ready = none
  looping : s.pc ≠ .verify → s.pc.ended = false → s.chunksReceived < x.metadata.totalChunks
  late : s.pc = .verify ∨ s.pc.ended → s.chunksReceived = x.metadata.totalChunks
  ended : s.pc.ended → s.settled ∧ s.isValid = some s.valid
  clear : s.file.lastWriteErr = none

theorem Accounts.start {x : Job C} (existing : Bytes)
    (hk : startChunk x.metadata < x.metadata.totalChunks)
    (hres : x.metadata.isResume = false → startChunk x.metadata = 0) :
    Accounts x 0 [] [] [] (State.start x.key x.metadata existing) := by
  have hcount : (State.start x.key x.metadata existing).chunksReceived = startChunk x.metadata := by
    unfold State.start
    cases hr : x.metadata.isResume with
    | true => rfl
    | false => exact (hres hr).symm
  refine ⟨rfl, hk.le, Nat.le_refl 0, fun _ => ⟨rfl, rfl⟩, fun j => ?_, fun j => ?_, rfl, hcount,
    rfl, rfl, rfl, fun _ _ => hcount ▸ hk, fun h => ?_, fun h => (by cases h), rfl⟩
  · rw [if_neg (by omega)]
    rfl
  · rfl
  · rcases h with h | h <;> cases h

theorem Accounts.hash {x : Job C} {m : Nat} {acked : List Nat} {i o : List (Frame C)}
    {s t : State C} {item : Nat × Bytes} (h : Accounts x m acked i o s) (hg : Genuine x s)
    (hs : step s (.hash item) = some t) : Accounts x m acked i o t := by
  obtain ⟨h1, h2, h3, h4, h5, h6, h7, h8, h9, h10, h11, h12, h13, h14, h15⟩ := h
  have hholds := hg.hash (guarded_eq_some.mp hs).1
  obtain ⟨hhead, rfl⟩ := guarded_eq_some.mp hs
  obtain ⟨rest, hqueue⟩ := List.head?_eq_some_iff.mp hhead
  obtain ⟨k, hout, hnext, -, htally, hpos⟩ :=
    Reorder.drain_spec (s.buffered.insert item.1 item.2).waiting.length hholds
  have hstart : (s.buffered.insert item.1 item.2).next = s.buffered.next := rfl
  rw [hstart] at hout hnext htally hpos
  have hret : s.pc.ended = false := by
    by_contra hp
    have := (h14 (Bool.eq_true_of_not_eq_false hp)).1.2.2.2
    rw [hqueue] at this
    cases this
  have hret' : ¬ s.pc.ended = true := Bool.not_eq_true _ ▸ hret
  refine ⟨h1, h2, h3, h4, h5, fun j => ?_, ?_, h8, h9, ?_, Reorder.ready_release _, h12, h13,
    fun hp => absurd hp hret', h15⟩
  · have hone : tally id s.finished j + tally id s.pc.pending j + tally id acked j ≤ 1 := by
      have := h5 j
      split_ifs at this <;> omega
    have hj := h6 j
    have hp := hpos j
    rw [hqueue, tally_cons] at hj
    rw [Reorder.tally_insert] at hp
    show tally Prod.fst s.hashQueue.tail j +
      tally Prod.fst (Reorder.drain _ (s.buffered.insert item.1 item.2)).2.waiting j +
      (if j < (Reorder.drain _ (s.buffered.insert item.1 item.2)).2.next then 1 else 0) =
        tally id s.finished j + tally id s.pc.pending j + tally id acked j
    rw [hqueue, List.tail_cons, htally, hnext, Reorder.tally_insert]
    by_cases he : j = item.1
    · rw [if_pos he.symm] at hj
      rw [if_pos he] at hp ⊢
      split_ifs at hj ⊢ <;> omega
    · rw [if_neg (Ne.symm he)] at hj
      rw [if_neg he] at hp ⊢
      split_ifs at hj ⊢ <;> omega
  · rw [h7, if_neg hret', if_neg hret']
  · dsimp only [Reorder.release]
    rw [hout, hnext, h10, ← List.flatten_append, ← List.map_append, List.range_eq_range',
      List.range_eq_range', ← List.range'_append_1, Nat.zero_add]

theorem Accounts.step {x : Job C} {m : Nat} {acked : List Nat} {i o : List (Frame C)}
    {s t : State C} {b : Act C} (h : Accounts x m acked i o s) (hg : Genuine x s)
    (hsmall : x.metadata.totalChunks ≤ 2 ^ 32) (hplaced : x.Placed) (hb : b.clean)
    (hin : ∀ f ∈ (receiver C).recvs b, f = x.chunkFrame (startChunk x.metadata + i.length) ∧
      startChunk x.metadata + i.length < x.metadata.totalChunks ∧ f.oversized = false)
    (hh : (receiver C).hangup b → s.pc.ended) (hs : Receiver.step s b = some t) :
    ∃ m' acked', Accounts x m' acked' (i ++ (receiver C).recvs b)
      (o ++ (receiver C).sends s b) t := by
  have hhash := @Accounts.hash C x m acked i o s t
  have hacc := h
  obtain ⟨h1, h2, h3, h4, h5, h6, h7, h8, h9, h10, h11, h12, h13, h14, h15⟩ := h
  -- while the loop runs, what it takes from the channel is the next chunk
  have head : s.pc = .select → ∀ y, s.channel.head? = some y →
      y = .ok (x.chunkFrame (startChunk x.metadata + m)) ∧ m < i.length := by
    intro hp y hy
    rw [(h4 (by rw [hp]; rfl)).2, List.head?_map, List.head?_drop] at hy
    obtain ⟨f, hf, rfl⟩ := Option.map_eq_some_iff.mp hy
    have hm := (List.getElem?_eq_some_iff.mp hf).1
    rw [h1, List.getElem?_map, List.getElem?_range' hm] at hf
    obtain rfl := Option.some.inj hf
    exact ⟨by rw [Nat.one_mul], hm⟩
  cases b with
  | readError | writeError | lastError | lost | ackError | verdictLost | flushFailed => cases hb
  | overflow item detail =>
    obtain ⟨⟨hmem, hlarge⟩, -⟩ := guarded_eq_some.mp hs
    have hlt := (hg.in_reach hplaced hmem).1
    omega
  | seekError item detail =>
    obtain ⟨⟨hmem, hnone, -⟩, -⟩ := guarded_eq_some.mp hs
    exact absurd hnone (hg.in_reach hplaced hmem).2
  | landed =>
    obtain ⟨-, rfl⟩ := guarded_eq_some.mp hs
    simp only [receiver, List.append_nil]
    exact ⟨m, acked, h1, h2, h3, h4, h5, h6, h7, h8, h9, h10, h11, h12, h13, h14, h15⟩
  | hash item =>
    refine ⟨m, acked, ?_⟩
    simpa [receiver] using hhash hacc hg hs
  | readFrame f =>
    obtain ⟨⟨hread, -⟩, rfl⟩ := guarded_eq_some.mp hs
    obtain ⟨hf, hlt, hover⟩ := hin f (by simp [receiver])
    have hread : (!f.oversized) = true := by rw [hover]; rfl
    have hitem : (if f.oversized then Except.error "Oversized message".toList else .ok f) =
      (.ok f : Except Text (Frame C)) := if_neg (by rw [hover]; exact Bool.false_ne_true)
    rw [hitem, hread]
    refine ⟨m, acked, ?_, ?_, ?_, fun hp => ⟨rfl, ?_⟩, h5, h6, (List.append_nil o).trans h7, h8, h9,
      h10, h11, h12, h13, h14, h15⟩
    · show i ++ [f] = (List.range' _ (i ++ [f]).length).map _
      rw [List.length_append, List.length_singleton, List.range'_concat, List.map_append, ← h1,
        Nat.one_mul, hf]
      rfl
    · show _ + (i ++ [f]).length ≤ _
      rw [List.length_append, List.length_singleton]
      exact hlt
    · show m ≤ (i ++ [f]).length
      rw [List.length_append]
      omega
    · show s.channel ++ [.ok f] = ((i ++ [f]).drop m).map .ok
      rw [(h4 hp).2, List.drop_append_of_le_length h3, List.map_append]
      rfl
  | hangup =>
    have hp := hh rfl
    obtain ⟨-, rfl⟩ := guarded_eq_some.mp hs
    simp only [receiver, List.append_nil]
    exact ⟨m, acked, h1, h2, h3, fun hn => absurd (hp.symm.trans hn) (by decide), h5, h6, h7, h8, h9,
      h10, h11, h12, h13, h14, h15⟩
  | spawn f item =>
    obtain ⟨⟨hp, hhead, hitem⟩, rfl⟩ := guarded_eq_some.mp hs
    obtain ⟨hf, hm⟩ := head hp _ hhead
    cases hf
    obtain ⟨hnum, -⟩ := hg.open_chunkFrame (by omega) hitem
    simp only [receiver, List.append_nil]
    refine ⟨m + 1, acked, h1, h2, hm, fun hn => ⟨(h4 hn).1, ?_⟩, fun j => ?_, h6, h7, h8, h9, h10,
      h11, h12, h13, fun hr => by simp [hp, Pc.ended] at hr, h15⟩
    · show s.channel.tail = _
      rw [(h4 hn).2, ← List.map_tail, List.tail_drop]
    · have := h5 j
      simp only [tally_append, tally_cons, tally_nil, hnum]
      split_ifs at this ⊢ <;> omega
  | badFrame f =>
    obtain ⟨⟨hp, hhead, hnone⟩, -⟩ := guarded_eq_some.mp hs
    obtain ⟨hf, -⟩ := head hp _ hhead
    cases hf
    exact absurd hnone (chunkOf_chunkFrame _ _)
  | readFailed detail =>
    obtain ⟨⟨hp, hhead⟩, -⟩ := guarded_eq_some.mp hs
    cases (head hp _ hhead).1
  | joinError detail =>
    obtain ⟨⟨-, hmem⟩, -⟩ := guarded_eq_some.mp hs
    rw [h9] at hmem
    cases hmem
  | decryptError item detail =>
    obtain ⟨⟨hmem, hnone⟩, -⟩ := guarded_eq_some.mp hs
    rw [(hg.decrypting item hmem).2] at hnone
    cases hnone
  | decrypted item data =>
    obtain ⟨⟨hmem, -⟩, rfl⟩ := guarded_eq_some.mp hs
    simp only [receiver, List.append_nil]
    refine ⟨m, acked, h1, h2, h3, h4, fun j => ?_, h6, h7, h8, h9, h10, h11, h12, h13,
      fun hr => ?_, h15⟩
    · have := h5 j
      have he := tally_erase Prod.fst j hmem
      simp only [tally_append, tally_cons, tally_nil]
      omega
    · rw [(h14 hr).1.1] at hmem
      cases hmem
  | written item =>
    obtain ⟨⟨hmem, -⟩, rfl⟩ := guarded_eq_some.mp hs
    simp only [receiver, List.append_nil]
    refine ⟨m, acked, h1, h2, h3, h4, fun j => ?_, h6, h7, h8, h9, h10, h11, h12, h13,
      fun hr => ?_, (AsyncFile.lastWriteErr_write ..).trans h15⟩
    · have := h5 j
      have he := tally_erase Prod.fst j hmem
      simp only [tally_append, tally_cons, tally_nil]
      omega
    · rw [(h14 hr).1.2.1] at hmem
      cases hmem
  | handed item =>
    obtain ⟨hmem, rfl⟩ := guarded_eq_some.mp hs
    simp only [receiver, List.append_nil]
    refine ⟨m, acked, h1, h2, h3, h4, fun j => ?_, fun j => ?_, h7, h8, h9, h10, h11, h12, h13,
      fun hr => ?_, h15⟩
    · have := h5 j
      have he := tally_erase Prod.fst j hmem
      simp only [tally_append, tally_cons, tally_nil, id_eq]
      omega
    · have := h6 j
      simp only [tally_append, tally_cons, tally_nil, id_eq]
      omega
    · rw [(h14 hr).1.2.2.1] at hmem
      cases hmem
  | join index =>
    obtain ⟨⟨hp, hmem⟩, rfl⟩ := guarded_eq_some.mp hs
    simp only [receiver, List.append_nil]
    have hne : s.pc.ended = false := by rw [hp]; rfl
    refine ⟨m, acked, h1, h2, h3, fun _ => h4 hne, fun j => ?_, fun j => ?_, ?_, h8, h9, h10, h11,
      fun _ _ => h12 (by simp [hp]) hne, (by simp [Pc.ended]), (by simp [Pc.ended]), h15⟩
    · have := h5 j
      have he := tally_erase id j hmem
      simp only [hp, Pc.pending, tally_cons, tally_nil, id_eq] at this he ⊢
      omega
    · have := h6 j
      have he := tally_erase id j hmem
      simp only [hp, Pc.pending, tally_cons, tally_nil, id_eq] at this he ⊢
      omega
    · rw [hne, if_neg Bool.false_ne_true] at h7
      simpa [Pc.ended] using h7
  | ack =>
    cases hp : s.pc with
    | ack index =>
      have hne : s.pc.ended = false := by rw [hp]; rfl
      have hlt := h12 (by simp [hp]) hne
      rw [hne, if_neg Bool.false_ne_true, List.append_nil] at h7
      obtain ⟨q, hq, hpend, hnr, hqv⟩ : ∃ q : Pc,
          (if s.chunksReceived + 1 = s.metadata.totalChunks then Pc.verify else .select) = q ∧
            q.pending = [] ∧ q.ended = false ∧
            (q = .verify ↔ s.chunksReceived + 1 = x.metadata.totalChunks) := by
        rw [hg.metadata]
        refine ⟨_, rfl, ?_⟩
        split_ifs with he <;> simp [Pc.pending, Pc.ended, he]
      have hnr' : ¬ q.ended = true := Bool.not_eq_true _ ▸ hnr
      simp only [Receiver.step, hp, hq, Option.some.injEq] at hs
      subst hs
      simp only [receiver, List.append_nil, hp]
      refine ⟨m, acked ++ [index], h1, h2, h3, fun _ => h4 hne, fun j => ?_, fun j => ?_, ?_, ?_, h9,
        h10, h11, fun hv _ => ?_, fun hl => ?_, fun hr => absurd hr hnr', h15⟩
      · have := h5 j
        rw [hp] at this
        dsimp only
        rw [hpend, tally_append]
        simp only [Pc.pending, tally_cons, tally_nil, id_eq] at this ⊢
        omega
      · have := h6 j
        rw [hp] at this
        dsimp only
        rw [hpend, tally_append]
        simp only [Pc.pending, tally_cons, tally_nil, id_eq] at this ⊢
        omega
      · rw [h7, List.map_append, if_neg hnr']
        simp
      · simp [h8, Nat.add_assoc]
      · exact lt_of_le_of_ne hlt fun he => hv (hqv.mpr he)
      · exact hqv.mp (hl.resolve_right hnr')
    | _ => simp [Receiver.step, hp] at hs
  | verdict =>
    obtain ⟨⟨hp, hset⟩, rfl⟩ := guarded_eq_some.mp hs
    rw [hp, if_neg (by decide), List.append_nil] at h7
    refine ⟨m, acked, ?_⟩
    simp only [receiver, List.append_nil]
    refine ⟨h1, h2, h3, fun hn => (by cases hn), fun j => ?_, fun j => ?_, ?_, h8, h9, h10, h11,
      fun _ hn => (by cases hn), fun _ => h13 (.inl hp), fun _ => ⟨hset, rfl⟩, h15⟩
    · simpa [hp, Pc.pending] using h5 j
    · simpa [hp, Pc.pending] using h6 j
    · rw [h7]
      rfl
  | flush =>
    obtain ⟨⟨hp, -⟩, rfl⟩ := guarded_eq_some.mp hs
    have hend : s.pc.ended = true := by rw [hp]; rfl
    rw [hend] at h7
    refine ⟨m, acked, ?_⟩
    simp only [receiver, List.append_nil]
    refine ⟨h1, h2, h3, fun hn => (by cases hn), fun j => ?_, fun j => ?_, h7, h8, h9, h10, h11,
      fun _ hn => (by cases hn), fun _ => h13 (.inr hend), fun _ => h14 hend, h15⟩
    · simpa [hp, Pc.pending] using h5 j
    · simpa [hp, Pc.pending] using h6 j

/-- A receiver whose tasks have ended has acknowledged every chunk that it was given. -/
theorem Accounts.places_of_settled {x : Job C} {m : Nat} {acked : List Nat} {i o : List (Frame C)}
    {s : State C} (h : Accounts x m acked i o s) (hset : s.settled) (hpend : s.pc.pending = [])
    (j : Nat) : tally id (s.finished ++ acked) j =
      if startChunk x.metadata ≤ j ∧ j < startChunk x.metadata + m then 1 else 0 := by
  have := h.places j
  obtain ⟨hdec, hwrite, hhash, -⟩ := hset
  rw [hdec, hwrite, hhash, hpend] at this
  simpa using this

theorem Pc.pending_of_ended {p : Pc} (h : p.ended) : p.pending = [] := by
  cases p with
  | ack index => cases h
  | _ => rfl

section Ended

variable {x : Job C} {m : Nat} {acked : List Nat} {i o : List (Frame C)} {s : State C}
  (h : Accounts x m acked i o s) (hp : s.pc.ended)
include h hp

/-- After the verdict every chunk has been acknowledged. -/
theorem Accounts.all_acked : s.finished = [] ∧ m = i.length ∧
    startChunk x.metadata + i.length = x.metadata.totalChunks := by
  have hlen := length_of_tally (h.places_of_settled (h.ended hp).1 (Pc.pending_of_ended hp))
  have hlate := h.late (.inr hp)
  have hcount := h.count
  have hbound := h.bound
  have htaken := h.taken
  rw [List.length_append] at hlen
  refine ⟨List.length_eq_zero_iff.mp ?_, ?_, ?_⟩ <;> omega

/-- After the verdict the hasher has every chunk. -/
theorem Accounts.hasher_all (j : Nat) : tally Prod.fst s.buffered.waiting j +
    (if j < s.buffered.next then 1 else 0) =
      if startChunk x.metadata ≤ j ∧ j < x.metadata.totalChunks then 1 else 0 := by
  obtain ⟨hfin, hm, htotal⟩ := h.all_acked hp
  have hset := (h.ended hp).1
  have hpend := Pc.pending_of_ended hp
  have hhanded := h.handed j
  have hplaces := h.places_of_settled hset hpend j
  rw [hm, htotal, hfin, List.nil_append] at hplaces
  rw [hset.2.2.2, hfin, hpend, hplaces] at hhanded
  simpa using hhanded

theorem Accounts.stored_all {j : Nat} (hj : startChunk x.metadata ≤ j)
    (hlt : j < x.metadata.totalChunks) : s.stored j := by
  have hall := (h.hasher_all hp j).trans (if_pos ⟨hj, hlt⟩)
  unfold State.stored
  split_ifs at hall <;> omega

/-- The hasher is content exactly when the chunks it was given start with the first. -/
theorem Accounts.valid_iff (hm : s.metadata = x.metadata)
    (hdesc : Describes x.source x.metadata)
    (hsum : x.metadata.checksum = C.blake3 x.source) :
    s.valid ↔ startChunk x.metadata = 0 := by
  have hpos := hdesc.totalChunks_pos
  have hidle := s.buffered.ready_eq_none.mp h.idle
  rw [State.valid, decide_eq_true_eq, hm]
  constructor
  · rintro ⟨hnext, -⟩
    have hall := h.hasher_all hp 0
    rw [if_pos (by omega)] at hall
    split at hall <;> omega
  · intro hk
    have hnext : s.buffered.next = x.metadata.totalChunks := by
      rcases Nat.lt_trichotomy s.buffered.next x.metadata.totalChunks with hlt | heq | hgt
      · have hall := h.hasher_all hp s.buffered.next
        rw [hidle, if_neg (Nat.lt_irrefl _), if_pos ⟨by omega, hlt⟩] at hall
        cases hall
      · exact heq
      · have hall := h.hasher_all hp x.metadata.totalChunks
        rw [if_pos hgt, if_neg (by omega)] at hall
        omega
    refine ⟨hnext, ?_⟩
    rw [h.hashed, hnext, hdesc.flatten_all, hsum]

end Ended

def Pc.rank : Pc → Nat
  | .select => 1
  | .ack _ => 9
  | .verify => 5
  | .flush => 1
  | .returned => 0

/-- What an item of the channel costs at most. -/
def itemRank : Except Text (Frame C) → Nat
  | .ok f => f.weight - 1
  | .error _ => 2

/-- An upper bound on what the loop and its tasks have still to do, -/
def State.work (s : State C) : Nat :=
  (if s.reading then 20 else 0) + Party.weight itemRank s.channel + 18 * s.decrypting.length +
    16 * s.writing.length + 14 * s.hashing.length + 10 * s.finished.length + s.failed.length +
    2 * s.hashQueue.length + s.pc.rank

/-- and on what the call has. -/
def State.rank (s : State C) : Nat := s.work + s.file.pending

theorem weight_verdict (s : State C) : s.verdict.weight = 3 := by
  unfold State.verdict
  split <;> rfl

theorem weight_of_chunkOf {f : Frame C} {item : Nat × Bool × Bytes} (h : chunkOf f = some item) :
    f.weight = 20 := by
  unfold chunkOf at h
  split at h
  · next heq => rw [Frame.weight, heq]
  · cases h

theorem rank_lower {s t : State C} {b : Act C} (hb : b.clean) (hs : step s b = some t) :
    t.rank + Party.weight Frame.weight ((receiver C).sends s b) <
      s.rank + Party.weight Frame.weight ((receiver C).recvs b) := by
  cases b with
  | readError | writeError | lastError | lost | ackError | verdictLost | flushFailed => cases hb
  | readFrame f =>
    obtain ⟨⟨hr, -⟩, rfl⟩ := guarded_eq_some.mp hs
    have := f.le_weight
    simp only [State.rank, State.work, receiver, hr, Party.weight_append, Party.weight_cons,
      Party.weight_nil, if_true]
    cases f.oversized with
    | true =>
      simp only [Bool.not_true, Bool.false_eq_true, if_false, if_true, itemRank]
      omega
    | false =>
      simp only [Bool.not_false, if_true, Bool.false_eq_true, if_false, itemRank]
      omega
  | hangup =>
    obtain ⟨⟨hr, -⟩, rfl⟩ := guarded_eq_some.mp hs
    simp only [State.rank, State.work, receiver, hr, Party.weight_append, Party.weight_cons,
      Party.weight_nil, if_true, Bool.false_eq_true, if_false, itemRank]
    omega
  | spawn f item =>
    obtain ⟨⟨hp, hhead, hitem⟩, rfl⟩ := guarded_eq_some.mp hs
    obtain ⟨rest, hchannel⟩ := List.head?_eq_some_iff.mp hhead
    have := weight_of_chunkOf hitem
    simp [State.rank, State.work, receiver, hchannel, itemRank]
    omega
  | badFrame f =>
    obtain ⟨⟨hp, hhead, -⟩, rfl⟩ := guarded_eq_some.mp hs
    obtain ⟨rest, hchannel⟩ := List.head?_eq_some_iff.mp hhead
    simp only [State.rank, State.work, receiver, hchannel, hp, Pc.rank, List.tail_cons,
      Party.weight_nil, Party.weight_cons]
    omega
  | readFailed detail =>
    obtain ⟨⟨hp, hhead⟩, rfl⟩ := guarded_eq_some.mp hs
    obtain ⟨rest, hchannel⟩ := List.head?_eq_some_iff.mp hhead
    simp only [State.rank, State.work, receiver, hchannel, hp, Pc.rank, List.tail_cons,
      Party.weight_nil, Party.weight_cons]
    omega
  | decrypted item data =>
    obtain ⟨⟨hmem, -⟩, rfl⟩ := guarded_eq_some.mp hs
    have := List.length_erase_of_mem hmem
    have := List.length_pos_of_mem hmem
    simp [State.rank, State.work, receiver]
    omega
  | decryptError item detail =>
    obtain ⟨⟨hmem, -⟩, rfl⟩ := guarded_eq_some.mp hs
    have := List.length_erase_of_mem hmem
    have := List.length_pos_of_mem hmem
    simp [State.rank, State.work, receiver]
    omega
  | written item =>
    obtain ⟨⟨hmem, -, hidle, -⟩, rfl⟩ := guarded_eq_some.mp hs
    have := List.length_erase_of_mem hmem
    have := List.length_pos_of_mem hmem
    have := AsyncFile.pending_of_idle hidle
    have := s.file.pending_write_le (offsetOf s.metadata item.1) item.2
    simp [State.rank, State.work, receiver]
    omega
  | overflow | seekError =>
    obtain ⟨⟨hmem, -⟩, rfl⟩ := guarded_eq_some.mp hs
    have := List.length_erase_of_mem hmem
    have := List.length_pos_of_mem hmem
    simp [State.rank, State.work, receiver]
    omega
  | landed =>
    obtain ⟨hbusy, rfl⟩ := guarded_eq_some.mp hs
    have := AsyncFile.pending_land hbusy
    simp [State.rank, State.work, receiver]
    omega
  | handed item =>
    obtain ⟨hmem, rfl⟩ := guarded_eq_some.mp hs
    have := List.length_erase_of_mem hmem
    have := List.length_pos_of_mem hmem
    simp [State.rank, State.work, receiver]
    omega
  | hash item =>
    obtain ⟨hhead, rfl⟩ := guarded_eq_some.mp hs
    obtain ⟨rest, hqueue⟩ := List.head?_eq_some_iff.mp hhead
    simp [State.rank, State.work, receiver, hqueue]
  | join index =>
    obtain ⟨⟨hp, hmem⟩, rfl⟩ := guarded_eq_some.mp hs
    have := List.length_erase_of_mem hmem
    have := List.length_pos_of_mem hmem
    simp [State.rank, State.work, receiver, hp, Pc.rank]
    omega
  | joinError detail =>
    obtain ⟨⟨hp, hmem⟩, rfl⟩ := guarded_eq_some.mp hs
    have := List.length_erase_of_mem hmem
    have := List.length_pos_of_mem hmem
    simp [State.rank, State.work, receiver, hp, Pc.rank]
    omega
  | ack =>
    cases hp : s.pc with
    | ack index =>
      simp only [step, hp, Option.some.injEq] at hs
      subst hs
      have hack : (ackFrame index : Frame C).weight = 3 := rfl
      simp only [State.rank, State.work, receiver, hp, Party.weight_cons, Party.weight_nil, hack]
      split_ifs <;> simp only [Pc.rank] <;> omega
    | _ => simp [step, hp] at hs
  | verdict =>
    obtain ⟨⟨hp, -⟩, rfl⟩ := guarded_eq_some.mp hs
    have := weight_verdict s
    simp [State.rank, State.work, receiver, hp, Pc.rank]
    omega
  | flush =>
    obtain ⟨⟨hp, -⟩, rfl⟩ := guarded_eq_some.mp hs
    simp [State.rank, State.work, receiver, hp, Pc.rank]

section Stuck

variable {s : State C}
  (stuck : ∀ b t, b.clean → (receiver C).recvs b = [] → (receiver C).hangup b = false →
    step s b ≠ some t)
include stuck

/-- What has been put off is written in the end. -/
theorem idle_of_stuck : s.file.inflight = none := by
  by_contra hbusy
  exact stuck .landed _ rfl rfl rfl (guarded_eq_some.mpr ⟨hbusy, rfl⟩)

/-- A receiver whose tasks can do nothing has acknowledged what it has been given. -/
theorem drained (hclear : s.file.lastWriteErr = none) (hp : s.pc ≠ .returned) :
    s.pc = .select ∧ s.channel = [] ∧ s.finished = [] ∧ s.settled := by
  have hidle := idle_of_stuck stuck
  have hdec : s.decrypting = [] := by
    cases hdec : s.decrypting with
    | nil => rfl
    | cons item rest =>
      have hmem : item ∈ s.decrypting := by simp [hdec]
      cases hopen : s.open item with
      | none =>
        exact absurd (guarded_eq_some.mpr ⟨⟨hmem, hopen⟩, rfl⟩)
          (stuck (.decryptError item []) _ rfl rfl rfl)
      | some data =>
        exact absurd (guarded_eq_some.mpr ⟨⟨hmem, hopen⟩, rfl⟩)
          (stuck (.decrypted item data) _ rfl rfl rfl)
  have hwrite : s.writing = [] := by
    cases hwrite : s.writing with
    | nil => rfl
    | cons item rest =>
      have hmem : item ∈ s.writing := by simp [hwrite]
      cases hseek : seekStart (offsetOf s.metadata item.1) with
      | none =>
        exact absurd (guarded_eq_some.mpr ⟨⟨hmem, hseek, hidle⟩, rfl⟩)
          (stuck (.seekError item []) _ rfl rfl rfl)
      | some pos =>
        have hwrites : s.Writes item := ⟨hmem, by rw [hseek]; rfl, hidle, .inr hclear⟩
        exact absurd (guarded_eq_some.mpr ⟨hwrites, rfl⟩) (stuck (.written item) _ rfl rfl rfl)
  have hhash : s.hashing = [] := by
    cases hhash : s.hashing with
    | nil => rfl
    | cons item rest =>
      exact absurd (guarded_eq_some.mpr ⟨by simp [hhash], rfl⟩)
        (stuck (.handed item) _ rfl rfl rfl)
  have hqueue : s.hashQueue = [] := by
    cases hqueue : s.hashQueue with
    | nil => rfl
    | cons item rest =>
      exact absurd (guarded_eq_some.mpr ⟨by rw [hqueue]; rfl, rfl⟩)
        (stuck (.hash item) _ rfl rfl rfl)
  have hset : s.settled := ⟨hdec, hwrite, hhash, hqueue⟩
  have hsel : s.pc = .select := by
    cases hpc : s.pc with
    | select => rfl
    | ack index => exact absurd (by simp only [step, hpc]; rfl) (stuck .ack _ rfl rfl rfl)
    | verify => exact absurd (guarded_eq_some.mpr ⟨⟨hpc, hset⟩, rfl⟩) (stuck .verdict _ rfl rfl rfl)
    | flush =>
      exact absurd (guarded_eq_some.mpr ⟨⟨hpc, hidle, hclear⟩, rfl⟩) (stuck .flush _ rfl rfl rfl)
    | returned => exact absurd hpc hp
  refine ⟨hsel, ?_, ?_, hset⟩
  · cases hchannel : s.channel with
    | nil => rfl
    | cons y rest =>
      have hhead : s.channel.head? = some y := by rw [hchannel]; rfl
      cases y with
      | error detail =>
        exact absurd (guarded_eq_some.mpr ⟨⟨hsel, hhead⟩, rfl⟩)
          (stuck (.readFailed detail) _ rfl rfl rfl)
      | ok f =>
        cases hitem : chunkOf f with
        | none =>
          exact absurd (guarded_eq_some.mpr ⟨⟨hsel, hhead, hitem⟩, rfl⟩)
            (stuck (.badFrame f) _ rfl rfl rfl)
        | some item =>
          exact absurd (guarded_eq_some.mpr ⟨⟨hsel, hhead, hitem⟩, rfl⟩)
            (stuck (.spawn f item) _ rfl rfl rfl)
  · cases hfin : s.finished with
    | nil => rfl
    | cons index rest =>
      exact absurd (guarded_eq_some.mpr ⟨⟨hsel, by simp [hfin]⟩, rfl⟩)
        (stuck (.join index) _ rfl rfl rfl)

end Stuck

end Receiver

end P2PTransfer.Cli
