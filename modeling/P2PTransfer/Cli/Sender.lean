import P2PTransfer.Lib.Reorder
import P2PTransfer.Tcp.Session
import P2PTransfer.Transfer.Engine

/-!
# The sender of the command line

`cmd_send` after the reply: a task that reads the chunks and spawns one task for each to
encrypt it, a task that reads the answers, and the loop, which puts the chunk frames on the
stream in the order of their numbers and counts the acknowledgements. It does not look at
the number that an acknowledgement carries.

## Main definitions

- `Job`, `Job.frame` — what the function sends, and the frame of a chunk
- `Sender.State`, `Sender.Act`, `sender` — the loop with its tasks as a party
- `sendMetadata`, `sendOpening` — how the function opens a connection
-/

namespace P2PTransfer.Cli

open Transition

variable {C : Primitives}

/-- The capacity of the channel from the encrypting tasks. -/
def netCapacity : Nat := 16

/-- The capacity of the channel of the answers. -/
def ackCapacity : Nat := 1024

/-- How many encrypting tasks there may be. -/
def maxTasks : Nat := 8

def windowSize : Nat := 32

/-- What a call sends. `level` is the effective compression, and `likelyCompressed` what
`is_likely_compressed_fast` says of the path. -/
structure Job (C : Primitives) where
  key : C.Key
  metadata : TransferMetadata C
  source : Bytes
  level : Int
  likelyCompressed : Bool

/-- The compressed chunk, where the task compresses it. -/
def Job.compressed (x : Job C) (data : Bytes) : Option Bytes :=
  if 0 < x.level ∧ 64 ≤ data.length ∧ ¬ x.likelyCompressed then C.compress x.level data else none

/-- The frame that a task makes of a chunk. -/
def Job.frame (x : Job C) (index : Nat) (data : Bytes) : Frame C :=
  let nonce := buildNonce x.metadata.noncePrefix index
  match x.compressed data with
  | some c => Frame.ofChunk index true (C.encrypt x.key nonce c)
  | none => Frame.ofChunk index false (C.encrypt x.key nonce data)

/-- The frame of the chunk with an index. -/
def Job.chunkFrame (x : Job C) (index : Nat) : Frame C :=
  x.frame index (prepareChunk x.source x.metadata index)

def startChunk (m : TransferMetadata C) : Nat :=
  min (m.resumeOffset / m.chunkSize) (m.totalChunks - 1)

/-- How many acknowledgements a call waits for. -/
def Job.due (x : Job C) : Nat := x.metadata.totalChunks - startChunk x.metadata

inductive SendError where
  | network (detail : Text)
  | peer (message : Text)
  | unexpectedComplete
  | expectedAck (tag : UInt8)
  | pipeline (detail : Text)
  | closed
  | mismatch
  | receiver (message : Text)
  | unexpectedResponse (tag : UInt8)
deriving DecidableEq

inductive SendOutcome where
  | paused
  | verified
deriving DecidableEq, Repr

namespace Sender

inductive Pc where
  | select
  | flush
  | check
  | acked
  | verdict
  | returned
deriving DecidableEq, Repr

structure State (C : Primitives) where
  job : Job C
  pc : Pc := .select
  paused : Bool := false
  spawning : Bool := true
  preparing : Option Bytes := none
  nextChunk : Nat
  encrypting : List (Nat × Bytes) := []
  finished : Nat := 0
  net : List (Nat × Frame C) := []
  errors : List Text := []
  reading : Bool := true
  acks : List (Frame C) := []
  bufferedFrames : Reorder (Frame C)
  nextToAck : Nat
  bytesSent : Nat
  progress : Option Nat := none
  result : Option (Except SendError SendOutcome) := none

/-- The loop after an accepting reply. -/
def State.start (job : Job C) : State C where
  job := job
  nextChunk := startChunk job.metadata
  bufferedFrames := { next := startChunk job.metadata }
  nextToAck := startChunk job.metadata
  bytesSent := job.metadata.resumeOffset

def State.nextToSend (s : State C) : Nat := s.bufferedFrames.next

/-- The encrypting tasks that have not been joined. -/
def State.tasks (s : State C) : Nat := s.encrypting.length + s.finished

inductive Act (C : Primitives) where
  | prepare
  | spawn
  | seePause
  | prepareError (detail : Text)
  | encrypted (item : Nat × Bytes)
  | encryptError (item : Nat × Bytes) (detail : Text)
  | join
  | readAck (f : Frame C)
  | hangup
  | readError (detail : Text)
  | take (item : Nat × Frame C)
  | write (f : Frame C)
  | writeError (detail : Text)
  | flushed
  | ack (f : Frame C)
  | badAck (f : Frame C)
  | pipelineError (detail : Text)
  | proceed
  | finish
  | verdict (f : Frame C)
  | closed
  | pause

/-- The actions of a run without faults and without a pause. -/
def Act.clean : Act C → Bool
  | .prepareError _ | .encryptError _ _ | .readError _ | .writeError _ | .pause => false
  | _ => true

/-- `len_to_inc`: by how much an acknowledgement moves the progress. -/
def State.lenToInc (s : State C) : Nat :=
  let actualLen := if s.nextToAck = s.job.metadata.totalChunks - 1
    then s.job.metadata.fileSize % s.job.metadata.chunkSize else s.job.metadata.chunkSize
  if actualLen = 0 then s.job.metadata.chunkSize else actualLen

def message (f : Frame C) : Text :=
  match f.payload with
  | .text t => t
  | _ => []

/-- The error that another frame than an acknowledgement ends the loop with. -/
def notAck (f : Frame C) : SendError :=
  if f.tag = tagError then .peer (message f)
  else if f.tag = tagComplete then .unexpectedComplete
  else .expectedAck f.tag

/-- What the answer after all acknowledgements means. -/
def State.outcome (s : State C) (f : Frame C) : Except SendError SendOutcome :=
  if f.tag = tagComplete then
    if f.payload = .digest s.job.metadata.checksum then .ok .verified else .error .mismatch
  else if f.tag = tagError then .error (.receiver (message f))
  else .error (.unexpectedResponse f.tag)

/-- The last item of a reader task. -/
def readFailed (detail : Text) : Frame C :=
  Frame.ofText tagError ("Read failed: ".toList ++ detail)

/-- One step. The reader task of the answers may hold one more than the channel does. -/
def step (s : State C) : Act C → Option (State C)
  -- the task that reads the chunks, and those that encrypt them
  | .prepare => guarded (s.spawning ∧ ¬ s.paused ∧ s.preparing = none ∧
        s.nextChunk < s.job.metadata.totalChunks ∧ s.tasks < maxTasks)
      { s with preparing := some (prepareChunk s.job.source s.job.metadata s.nextChunk) }
  | .spawn => s.preparing.map fun data =>
      { s with preparing := none, encrypting := s.encrypting ++ [(s.nextChunk, data)],
               nextChunk := s.nextChunk + 1 }
  | .seePause => guarded (s.spawning ∧ s.paused ∧ s.preparing = none) { s with spawning := false }
  | .prepareError detail => guarded (s.spawning ∧ s.preparing = none ∧
        s.nextChunk < s.job.metadata.totalChunks)
      { s with spawning := false, errors := s.errors ++ [detail] }
  | .encrypted item => guarded (item ∈ s.encrypting ∧ s.net.length < netCapacity)
      { s with encrypting := s.encrypting.erase item, finished := s.finished + 1,
               net := s.net ++ [(item.1, s.job.frame item.1 item.2)] }
  | .encryptError item detail => guarded (item ∈ s.encrypting)
      { s with encrypting := s.encrypting.erase item, finished := s.finished + 1,
               errors := s.errors ++ [detail] }
  | .join => guarded (0 < s.finished ∧ (maxTasks ≤ s.tasks ∨ ¬ s.spawning ∨
        s.nextChunk = s.job.metadata.totalChunks))
      { s with finished := s.finished - 1 }
  -- the task that reads the answers
  | .readAck f => guarded (s.reading ∧ s.acks.length ≤ ackCapacity)
      { s with reading := !f.oversized,
               acks := s.acks ++ [if f.oversized then readFailed "Oversized message".toList else f] }
  | .hangup => guarded (s.reading ∧ s.acks.length ≤ ackCapacity)
      { s with reading := false,
               acks := s.acks ++ [readFailed "Failed to read message length".toList] }
  | .readError detail => guarded (s.reading ∧ s.acks.length ≤ ackCapacity)
      { s with reading := false, acks := s.acks ++ [readFailed detail] }
  -- the loop
  | .take item => guarded (s.pc = .select ∧ s.net.head? = some item ∧
        s.nextToAck ≤ s.nextToSend ∧ s.nextToSend - s.nextToAck < windowSize)
      { s with pc := .flush, net := s.net.tail,
               bufferedFrames := s.bufferedFrames.insert item.1 item.2 }
  | .write f => guarded (s.pc = .flush ∧ s.bufferedFrames.ready = some f)
      { s with bufferedFrames := s.bufferedFrames.advance }
  | .writeError detail => guarded (s.pc = .flush ∧ s.bufferedFrames.ready ≠ none)
      { s with pc := .returned, result := some (.error (.network detail)) }
  | .flushed => guarded (s.pc = .flush ∧ s.bufferedFrames.ready = none) { s with pc := .check }
  | .ack f => guarded (s.pc = .select ∧ s.acks.head? = some f ∧ f.tag = tagChunkAck)
      { s with acks := s.acks.tail, bytesSent := s.bytesSent + s.lenToInc,
               progress := some (s.bytesSent + s.lenToInc), nextToAck := s.nextToAck + 1,
               pc := if s.nextToAck + 1 = s.job.metadata.totalChunks then .acked else .check }
  | .badAck f => guarded (s.pc = .select ∧ s.acks.head? = some f ∧ f.tag ≠ tagChunkAck)
      { s with acks := s.acks.tail, pc := .returned, result := some (.error (notAck f)) }
  | .pipelineError detail => guarded (s.pc = .select ∧ s.errors.head? = some detail)
      { s with pc := .returned, result := some (.error (.pipeline detail)) }
  | .proceed => guarded (s.pc = .check)
      { s with pc := if s.paused then .returned else .select,
               result := if s.paused then some (.ok .paused) else s.result }
  | .finish => guarded (s.pc = .acked)
      { s with pc := if s.paused then .returned else .verdict,
               result := if s.paused then some (.ok .paused) else s.result }
  | .verdict f => guarded (s.pc = .verdict ∧ s.acks.head? = some f)
      { s with acks := s.acks.tail, pc := .returned, result := some (s.outcome f) }
  | .closed => guarded (s.pc = .verdict ∧ s.acks = [] ∧ ¬ s.reading)
      { s with pc := .returned, result := some (.error .closed) }
  | .pause => some { s with paused := true }

end Sender

/-- `cmd_send` after the reply. -/
def sender (C : Primitives) : Party (Sender.State C) (Sender.Act C) (Frame C) where
  step := Sender.step
  recvs
    | .readAck f => [f]
    | _ => []
  sends _
    | .write f => [f]
    | _ => []
  hangup
    | .hangup => true
    | _ => false
  closed s := decide (s.pc = .returned)

/-- What `cmd_send` announces for a resume record with this offset. -/
def sendMetadata (C : Primitives) (sessionId fileName : Text) (source noncePrefix : Bytes)
    (chunkSize resumeOffset : Nat) : TransferMetadata C :=
  { createMetadata C sessionId fileName source chunkSize false with
    noncePrefix := noncePrefix, resumeOffset := resumeOffset, isResume := 0 < resumeOffset }

/-- `cmd_send` up to the reply. -/
def sendOpening (C : Primitives) (secret : C.Secret) (metadata : TransferMetadata C)
    (source : Bytes) (level : Int) (likelyCompressed : Bool) : Opening C (Sender.State C) where
  secret := secret
  metadata := metadata
  start key f :=
    if f.accepts then some (Sender.State.start ⟨key, metadata, source, level, likelyCompressed⟩)
    else none

namespace Sender

theorem step_job {s t : State C} {a : Act C} (hs : step s a = some t) : t.job = s.job := by
  cases a with
  | spawn =>
    obtain ⟨data, -, rfl⟩ := Option.map_eq_some_iff.mp hs
    rfl
  | pause =>
    obtain rfl := Option.some.inj hs
    rfl
  | _ =>
    simp only [step, guarded_eq_some] at hs
    obtain ⟨-, rfl⟩ := hs
    rfl

/-- A frame with the number of its chunk. -/
def Made (x : Job C) (item : Nat × Frame C) : Prop :=
  item.1 < x.metadata.totalChunks ∧ item.2 = x.chunkFrame item.1

/-- Everything on its way to the stream is a chunk of the source. -/
structure Genuine (o : List (Frame C)) (s : State C) : Prop where
  next : s.nextChunk ≤ s.job.metadata.totalChunks
  preparing : ∀ data, s.preparing = some data → s.nextChunk < s.job.metadata.totalChunks ∧
    data = prepareChunk s.job.source s.job.metadata s.nextChunk
  encrypting : ∀ x ∈ s.encrypting, x.1 < s.job.metadata.totalChunks ∧
    x.2 = prepareChunk s.job.source s.job.metadata x.1
  net : ∀ x ∈ s.net, Made s.job x
  buffer : ∀ x ∈ s.bufferedFrames.waiting, Made s.job x
  out : ∀ f ∈ o, ∃ j < s.job.metadata.totalChunks, f = s.job.chunkFrame j

theorem Genuine.holds {o : List (Frame C)} {s : State C} (h : Genuine o s) :
    s.bufferedFrames.Holds s.job.chunkFrame := fun x hx => (h.buffer x hx).2

theorem Genuine.start (job : Job C) : Genuine [] (State.start job) where
  next := (Nat.min_le_right _ _).trans (Nat.sub_le _ _)
  preparing data h := by cases h
  encrypting x h := by cases h
  net x h := by cases h
  buffer x h := by cases h
  out f h := by cases h

theorem Genuine.step {o : List (Frame C)} {s t : State C} {a : Act C} (h : Genuine o s)
    (hs : step s a = some t) : Genuine (o ++ (sender C).sends s a) t := by
  have hholds := h.holds
  obtain ⟨h1, h2, h3, h4, h5, h6⟩ := h
  cases a with
  | spawn =>
    obtain ⟨data, hd, rfl⟩ := Option.map_eq_some_iff.mp hs
    obtain ⟨hlt, rfl⟩ := h2 data hd
    refine ⟨hlt, fun _ hn => by simp at hn, fun x hx => ?_, h4, h5, by simpa [sender] using h6⟩
    rcases List.mem_append.mp hx with hx | hx
    · exact h3 x hx
    · rw [List.mem_singleton.mp hx]
      exact ⟨hlt, rfl⟩
  | pause =>
    obtain rfl := Option.some.inj hs
    exact ⟨h1, h2, h3, h4, h5, by simpa [sender] using h6⟩
  | prepare =>
    obtain ⟨g, rfl⟩ := guarded_eq_some.mp hs
    refine ⟨h1, fun data hd => ⟨g.2.2.2.1, (Option.some.inj hd).symm⟩, h3, h4, h5, ?_⟩
    simpa [sender] using h6
  | encrypted item =>
    obtain ⟨⟨hmem, -⟩, rfl⟩ := guarded_eq_some.mp hs
    refine ⟨h1, h2, fun x hx => h3 x (List.mem_of_mem_erase hx), fun x hx => ?_, h5,
      by simpa [sender] using h6⟩
    rcases List.mem_append.mp hx with hx | hx
    · exact h4 x hx
    · rw [List.mem_singleton.mp hx]
      obtain ⟨hlt, hdata⟩ := h3 item hmem
      exact ⟨hlt, by rw [Job.chunkFrame, ← hdata]⟩
  | encryptError item detail =>
    obtain ⟨-, rfl⟩ := guarded_eq_some.mp hs
    exact ⟨h1, h2, fun x hx => h3 x (List.mem_of_mem_erase hx), h4, h5, by simpa [sender] using h6⟩
  | take item =>
    obtain ⟨⟨-, hhead, -⟩, rfl⟩ := guarded_eq_some.mp hs
    refine ⟨h1, h2, h3, fun x hx => h4 x (List.mem_of_mem_tail hx), fun x hx => ?_,
      by simpa [sender] using h6⟩
    rcases List.mem_cons.mp hx with rfl | hx
    · exact h4 item (List.mem_of_mem_head? hhead)
    · exact h5 x (List.mem_of_mem_filter hx)
  | write f =>
    obtain ⟨⟨-, hready⟩, rfl⟩ := guarded_eq_some.mp hs
    refine ⟨h1, h2, h3, h4, fun x hx => h5 x (List.mem_of_mem_filter hx), fun g hg => ?_⟩
    rcases List.mem_append.mp hg with hg | hg
    · exact h6 g hg
    · obtain ⟨x, hx, rfl⟩ := Option.map_eq_some_iff.mp hready
      rw [List.mem_singleton.mp hg]
      exact ⟨x.1, h5 x (List.mem_of_find?_eq_some hx)⟩
  | _ =>
    simp only [Sender.step, guarded_eq_some] at hs
    obtain ⟨-, rfl⟩ := hs
    exact ⟨h1, h2, h3, h4, h5, by simpa [sender] using h6⟩

/-- Every chunk from the first to send on is accounted for: it is on its way exactly once,
and what has been put on the stream are the frames before, in order. -/
structure Accounts (o : List (Frame C)) (s : State C) : Prop where
  first : startChunk s.job.metadata ≤ s.bufferedFrames.next
  sent : s.bufferedFrames.next ≤ s.nextChunk
  tally : ∀ j, tally Prod.fst s.encrypting j + tally Prod.fst s.net j +
    tally Prod.fst s.bufferedFrames.waiting j =
      if s.bufferedFrames.next ≤ j ∧ j < s.nextChunk then 1 else 0
  out : o = (List.range' (startChunk s.job.metadata)
    (s.bufferedFrames.next - startChunk s.job.metadata)).map s.job.chunkFrame
  idle : s.pc ≠ .flush → s.bufferedFrames.ready = none

theorem Accounts.start (job : Job C) : Accounts [] (State.start job) where
  first := Nat.le_refl _
  sent := Nat.le_refl _
  tally j := by
    rw [if_neg (by simp [State.start])]
    rfl
  out := by simp [State.start]
  idle _ := rfl

theorem Accounts.step {o : List (Frame C)} {s t : State C} {a : Act C} (h : Accounts o s)
    (hg : Genuine o s) (ha : a.clean) (hs : step s a = some t) :
    Accounts (o ++ (sender C).sends s a) t := by
  have hholds := hg.holds
  obtain ⟨h1, h2, h3, h4, h5⟩ := h
  cases a with
  | pause => cases ha
  | prepareError detail => cases ha
  | encryptError item detail => cases ha
  | readError detail => cases ha
  | writeError detail => cases ha
  | spawn =>
    obtain ⟨data, hd, rfl⟩ := Option.map_eq_some_iff.mp hs
    refine ⟨h1, Nat.le_succ_of_le h2, fun j => ?_, by simpa [sender] using h4, h5⟩
    have := h3 j
    simp only [tally_append, tally_cons, tally_nil]
    split_ifs at this ⊢ <;> omega
  | encrypted item =>
    obtain ⟨⟨hmem, -⟩, rfl⟩ := guarded_eq_some.mp hs
    refine ⟨h1, h2, fun j => ?_, by simpa [sender] using h4, h5⟩
    have := h3 j
    have he := tally_erase Prod.fst j hmem
    simp only [tally_append, tally_cons, tally_nil]
    omega
  | take item =>
    obtain ⟨⟨hpc, hhead, -⟩, rfl⟩ := guarded_eq_some.mp hs
    obtain ⟨rest, hnet⟩ := List.head?_eq_some_iff.mp hhead
    refine ⟨h1, h2, fun j => ?_, (List.append_nil o).trans h4, fun hp => absurd rfl hp⟩
    have := h3 j
    have hi := h3 item.1
    simp only [hnet, tally_cons, if_true] at this hi
    simp only [hnet, List.tail_cons, Reorder.tally_insert]
    show _ = if s.bufferedFrames.next ≤ j ∧ j < s.nextChunk then 1 else 0
    split_ifs at this hi ⊢ <;> omega
  | write f =>
    obtain ⟨⟨hpc, hready⟩, rfl⟩ := guarded_eq_some.mp hs
    have hne : s.bufferedFrames.ready ≠ none := by simp [hready]
    rw [Ne, Reorder.ready_eq_none] at hne
    have hn := h3 s.bufferedFrames.next
    have hlt : s.bufferedFrames.next < s.nextChunk := by
      by_contra hge
      rw [if_neg (by omega)] at hn
      omega
    rw [if_pos ⟨Nat.le_refl _, hlt⟩] at hn
    refine ⟨Nat.le_succ_of_le h1, hlt, fun j => ?_, ?_, fun hp => absurd hpc hp⟩
    · have := h3 j
      simp only [Reorder.tally_advance]
      show _ = if s.bufferedFrames.next + 1 ≤ j ∧ j < s.nextChunk then 1 else 0
      by_cases hj : j = s.bufferedFrames.next
      · rw [if_pos hj, if_neg (by omega), hj]
        omega
      · rw [if_neg hj]
        split_ifs at this ⊢ <;> omega
    · show o ++ [f] = (List.range' _ (s.bufferedFrames.next + 1 - _)).map _
      rw [Nat.succ_sub h1, List.range'_concat, List.map_append, ← h4, hholds.ready hready,
        Nat.one_mul, Nat.add_sub_cancel' h1]
      rfl
  | flushed =>
    obtain ⟨⟨-, hready⟩, rfl⟩ := guarded_eq_some.mp hs
    exact ⟨h1, h2, h3, by simpa [sender] using h4, fun _ => hready⟩
  | _ =>
    simp only [Sender.step, guarded_eq_some] at hs
    obtain ⟨g, rfl⟩ := hs
    refine ⟨h1, h2, h3, by simpa [sender] using h4, fun _ => h5 ?_⟩
    first
      | assumption
      | simp [g]

def Pc.looping : Pc → Bool
  | .select | .flush | .check => true
  | _ => false

/-- The peer has sent small frames, and acknowledgements first. -/
structure Answered (x : Job C) (i : List (Frame C)) : Prop where
  small : ∀ f ∈ i, f.oversized = false
  acks : ∀ n f, n < Job.due x → i[n]? = some f → f.tag = tagChunkAck

/-- How far the loop is with what has come in. -/
structure Follows (i : List (Frame C)) (s : State C) : Prop where
  paused : s.paused = false ∧ s.spawning = true
  errors : s.errors = []
  first : startChunk s.job.metadata ≤ s.nextToAck
  looping : s.pc.looping → s.nextToAck < s.job.metadata.totalChunks
  late : s.pc = .acked ∨ s.pc = .verdict → s.nextToAck = s.job.metadata.totalChunks
  queue : s.pc ≠ .returned → ∃ used last, i ++ last = used ++ s.acks ∧
    used.length = s.nextToAck - startChunk s.job.metadata ∧ (s.reading → last = []) ∧
    last.length ≤ 1
  ended : s.reading = false → Job.due s.job < i.length
  returned : s.pc = .returned → ∃ f, i[Job.due s.job]? = some f ∧
    s.result = some (s.outcome f)

theorem Follows.start {job : Job C}
    (hk : startChunk job.metadata < job.metadata.totalChunks) : Follows [] (State.start job) where
  paused := ⟨rfl, rfl⟩
  errors := rfl
  first := Nat.le_refl _
  looping _ := hk
  late h := by rcases h with h | h <;> cases h
  queue _ := ⟨[], [], rfl, by simp [State.start], fun _ => rfl, by simp⟩
  ended h := by cases h
  returned h := by cases h

theorem Follows.step {i : List (Frame C)} {s t : State C} {a : Act C} (h : Follows i s)
    (ha : a.clean) (hans : Answered s.job (i ++ (sender C).recvs a))
    (hend : (sender C).hangup a → Job.due s.job < i.length) (hs : step s a = some t) :
    Follows (i ++ (sender C).recvs a) t := by
  obtain ⟨h1, h2, h3, h4, h5, h6, h7, h8⟩ := h
  -- the head of the channel, while the loop runs, is what came in at its place
  have head : ∀ f, s.pc ≠ .returned → s.acks.head? = some f →
      s.nextToAck - startChunk s.job.metadata ≤ Job.due s.job →
      i[s.nextToAck - startChunk s.job.metadata]? = some f := by
    intro f hp hf hn
    obtain ⟨used, last, hq, hlen, hread, hlast⟩ := h6 hp
    obtain ⟨rest, hrest⟩ := List.head?_eq_some_iff.mp hf
    have hget : (i ++ last)[used.length]? = some f := by
      rw [hq, hrest, List.getElem?_append_right (Nat.le_refl _), Nat.sub_self]
      rfl
    have hlt : used.length < i.length := by
      cases hr : s.reading with
      | true =>
        rw [hread hr, List.append_nil] at hq
        rw [hq, hrest, List.length_append, List.length_cons]
        omega
      | false =>
        have := h7 hr
        omega
    rwa [List.getElem?_append_left hlt, hlen] at hget
  cases a with
  | prepareError detail => cases ha
  | encryptError item detail => cases ha
  | readError detail => cases ha
  | writeError detail => cases ha
  | pause => cases ha
  | seePause =>
    obtain ⟨⟨-, hp, -⟩, -⟩ := guarded_eq_some.mp hs
    simp [h1.1] at hp
  | spawn =>
    obtain ⟨data, -, rfl⟩ := Option.map_eq_some_iff.mp hs
    simp only [sender, List.append_nil]
    exact ⟨h1, h2, h3, h4, h5, h6, h7, h8⟩
  | readAck f =>
    obtain ⟨⟨hr, -⟩, rfl⟩ := guarded_eq_some.mp hs
    have hsmall : f.oversized = false := hans.small f (by simp [sender])
    refine ⟨h1, h2, h3, h4, h5, fun hp => ?_, fun hr' => by simp [hsmall] at hr', fun hp => ?_⟩
    · obtain ⟨used, last, hq, hlen, hread, -⟩ := h6 hp
      rw [hread hr, List.append_nil] at hq
      exact ⟨used, [], by simp [sender, hsmall, hq], hlen, fun _ => rfl, by simp⟩
    · obtain ⟨g, hg, hres⟩ := h8 hp
      exact ⟨g, by rw [List.getElem?_append_left (List.getElem?_eq_some_iff.mp hg).1]; exact hg, hres⟩
  | hangup =>
    obtain ⟨⟨hr, -⟩, rfl⟩ := guarded_eq_some.mp hs
    simp only [sender, List.append_nil]
    refine ⟨h1, h2, h3, h4, h5, fun hp => ?_, fun _ => hend rfl, h8⟩
    obtain ⟨used, last, hq, hlen, hread, -⟩ := h6 hp
    rw [hread hr, List.append_nil] at hq
    exact ⟨used, [readFailed "Failed to read message length".toList],
      by rw [hq, List.append_assoc], hlen, fun hr' => absurd hr' Bool.false_ne_true, Nat.le_refl 1⟩
  | ack f =>
    obtain ⟨⟨hp, hf, htag⟩, rfl⟩ := guarded_eq_some.mp hs
    have hlt := h4 (by simp [hp, Pc.looping])
    obtain ⟨used, last, hq, hlen, hread, hlast⟩ := h6 (by simp [hp])
    obtain ⟨rest, hrest⟩ := List.head?_eq_some_iff.mp hf
    simp only [sender, List.append_nil]
    refine ⟨h1, h2, Nat.le_succ_of_le h3, fun hl => ?_, fun hl => ?_, fun _ => ?_, h7, fun hr => ?_⟩
    · show s.nextToAck + 1 < s.job.metadata.totalChunks
      by_cases he : s.nextToAck + 1 = s.job.metadata.totalChunks
      · simp [he, Pc.looping] at hl
      · omega
    · show s.nextToAck + 1 = s.job.metadata.totalChunks
      by_contra he
      simp [he] at hl
    · refine ⟨used ++ [f], last, by simp [hq, hrest], ?_, hread, hlast⟩
      show _ = s.nextToAck + 1 - startChunk s.job.metadata
      rw [List.length_append, hlen, List.length_singleton]
      omega
    · dsimp only at hr
      split at hr <;> cases hr
  | badAck f =>
    obtain ⟨⟨hp, hf, htag⟩, -⟩ := guarded_eq_some.mp hs
    have hlt := h4 (by simp [hp, Pc.looping])
    have hdue : s.nextToAck - startChunk s.job.metadata < Job.due s.job := by
      unfold Job.due
      omega
    have hget := head f (by simp [hp]) hf (Nat.le_of_lt hdue)
    refine absurd (hans.acks _ f hdue ?_) htag
    simpa [sender] using hget
  | pipelineError detail =>
    obtain ⟨⟨-, hd⟩, -⟩ := guarded_eq_some.mp hs
    rw [h2] at hd
    cases hd
  | closed =>
    obtain ⟨⟨hp, hnil, hr⟩, -⟩ := guarded_eq_some.mp hs
    obtain ⟨used, last, hq, hlen, -, hlast⟩ := h6 (by simp [hp])
    have hend := h7 (Bool.eq_false_iff.mpr hr)
    have hfull := h5 (.inr hp)
    have := congrArg List.length hq
    rw [hnil, List.append_nil, List.length_append, hlen, hfull] at this
    unfold Job.due at hend
    omega
  | verdict f =>
    obtain ⟨⟨hp, hf⟩, rfl⟩ := guarded_eq_some.mp hs
    have hfull := h5 (.inr hp)
    have hdue : s.nextToAck - startChunk s.job.metadata = Job.due s.job := by rw [hfull, Job.due]
    have hget := head f (by simp [hp]) hf (Nat.le_of_eq hdue)
    rw [hdue] at hget
    simp only [sender, List.append_nil]
    exact ⟨h1, h2, h3, (by simp [Pc.looping]), (by simp), fun hr => absurd rfl hr, h7,
      fun _ => ⟨f, hget, rfl⟩⟩
  | proceed =>
    obtain ⟨hp, rfl⟩ := guarded_eq_some.mp hs
    simp only [sender, List.append_nil]
    exact ⟨h1, h2, h3, fun _ => h4 (by simp [hp, Pc.looping]), (by simp [h1.1]),
      fun _ => h6 (by simp [hp]), h7, (by simp [h1.1])⟩
  | finish =>
    obtain ⟨hp, rfl⟩ := guarded_eq_some.mp hs
    simp only [sender, List.append_nil]
    exact ⟨h1, h2, h3, (by simp [h1.1, Pc.looping]), fun _ => h5 (.inl hp),
      fun _ => h6 (by simp [hp]), h7, (by simp [h1.1])⟩
  | take item =>
    obtain ⟨⟨hp, -⟩, rfl⟩ := guarded_eq_some.mp hs
    simp only [sender, List.append_nil]
    exact ⟨h1, h2, h3, fun _ => h4 (by simp [hp, Pc.looping]), (by simp),
      fun _ => h6 (by simp [hp]), h7, (by simp)⟩
  | flushed =>
    obtain ⟨⟨hp, -⟩, rfl⟩ := guarded_eq_some.mp hs
    simp only [sender, List.append_nil]
    exact ⟨h1, h2, h3, fun _ => h4 (by simp [hp, Pc.looping]), (by simp),
      fun _ => h6 (by simp [hp]), h7, (by simp)⟩
  | _ =>
    simp only [Sender.step, guarded_eq_some] at hs
    obtain ⟨-, rfl⟩ := hs
    simp only [sender, List.append_nil]
    exact ⟨h1, h2, h3, h4, h5, h6, h7, h8⟩

def Pc.rank : Pc → Nat
  | .flush => 7
  | .check | .acked => 6
  | .select => 5
  | .verdict => 4
  | .returned => 0

/-- An upper bound on what the call has still to do. -/
def State.rank (s : State C) : Nat :=
  32 * (s.job.metadata.totalChunks - s.nextChunk) + (if s.preparing = none then 1 else 0) +
    28 * s.encrypting.length + s.finished + 26 * s.net.length +
    22 * s.bufferedFrames.waiting.length + (if s.reading then 3 else 0) + 2 * s.acks.length +
    (if s.spawning then 1 else 0) + s.pc.rank

theorem rank_lower {o : List (Frame C)} {s t : State C} {a : Act C} (hg : Genuine o s)
    (ha : a.clean) (hs : step s a = some t) :
    t.rank + Party.weight Frame.weight ((sender C).sends s a) <
      s.rank + Party.weight Frame.weight ((sender C).recvs a) := by
  cases a with
  | prepareError detail => cases ha
  | encryptError item detail => cases ha
  | readError detail => cases ha
  | writeError detail => cases ha
  | pause => cases ha
  | spawn =>
    obtain ⟨data, hd, rfl⟩ := Option.map_eq_some_iff.mp hs
    have := (hg.preparing data hd).1
    simp [State.rank, sender, hd]
    omega
  | prepare =>
    obtain ⟨⟨-, -, hp, -⟩, rfl⟩ := guarded_eq_some.mp hs
    simp [State.rank, sender, hp]
  | encrypted item =>
    obtain ⟨⟨hmem, -⟩, rfl⟩ := guarded_eq_some.mp hs
    have := List.length_erase_of_mem hmem
    have := List.length_pos_of_mem hmem
    simp [State.rank, sender]
    omega
  | readAck f =>
    obtain ⟨⟨hr, -⟩, rfl⟩ := guarded_eq_some.mp hs
    have := f.le_weight
    simp only [State.rank, sender, hr, List.length_append, List.length_singleton, if_true,
      Party.weight_nil, Party.weight_cons]
    split_ifs <;> omega
  | hangup =>
    obtain ⟨⟨hr, -⟩, rfl⟩ := guarded_eq_some.mp hs
    simp only [State.rank, sender, hr, List.length_append, List.length_singleton, if_true,
      Bool.false_eq_true, if_false, Party.weight_nil]
    omega
  | take item =>
    obtain ⟨⟨hp, hhead, -⟩, rfl⟩ := guarded_eq_some.mp hs
    obtain ⟨rest, hnet⟩ := List.head?_eq_some_iff.mp hhead
    have := s.bufferedFrames.length_insert_le item.1 item.2
    simp [State.rank, sender, hp, hnet, Pc.rank]
    omega
  | write f =>
    obtain ⟨⟨hp, hready⟩, rfl⟩ := guarded_eq_some.mp hs
    have := s.bufferedFrames.length_advance_lt hready
    have := f.weight_le
    simp [State.rank, sender]
    omega
  | ack f =>
    obtain ⟨⟨hp, hhead, -⟩, rfl⟩ := guarded_eq_some.mp hs
    obtain ⟨rest, hacks⟩ := List.head?_eq_some_iff.mp hhead
    simp [State.rank, sender, hp, hacks]
    split_ifs <;> simp only [Pc.rank] <;> omega
  | badAck f =>
    obtain ⟨⟨hp, hhead, -⟩, rfl⟩ := guarded_eq_some.mp hs
    obtain ⟨rest, hacks⟩ := List.head?_eq_some_iff.mp hhead
    simp [State.rank, sender, hp, hacks, Pc.rank]
    omega
  | verdict f =>
    obtain ⟨⟨hp, hhead⟩, rfl⟩ := guarded_eq_some.mp hs
    obtain ⟨rest, hacks⟩ := List.head?_eq_some_iff.mp hhead
    simp [State.rank, sender, hp, hacks, Pc.rank]
    omega
  | proceed =>
    obtain ⟨hp, rfl⟩ := guarded_eq_some.mp hs
    simp [State.rank, sender, hp]
    split_ifs <;> simp only [Pc.rank] <;> omega
  | finish =>
    obtain ⟨hp, rfl⟩ := guarded_eq_some.mp hs
    simp [State.rank, sender, hp]
    split_ifs <;> simp only [Pc.rank] <;> omega
  | _ =>
    simp only [Sender.step, guarded_eq_some] at hs
    obtain ⟨g, rfl⟩ := hs
    simp only [State.rank, sender, g, Pc.rank, Party.weight_nil, if_true, Bool.false_eq_true,
      if_false]
    omega

theorem Follows.reading_of_empty {i : List (Frame C)} {s : State C} (h : Follows i s)
    (hp : s.pc ≠ .returned) (hle : s.nextToAck ≤ s.job.metadata.totalChunks)
    (hnil : s.acks = []) : s.reading = true := by
  by_contra hr
  obtain ⟨used, last, hq, hlen, -, -⟩ := h.queue hp
  have hend := h.ended (Bool.eq_false_iff.mpr hr)
  have := congrArg List.length hq
  rw [hnil, List.append_nil, List.length_append, hlen] at this
  unfold Job.due at hend
  omega

/-- A loop that waits for an answer takes the next one. -/
theorem waiting {s : State C} (hr : s.reading = true) (hnil : s.acks = []) :
    (sender C).Waiting (fun a => a.clean) s where
  takes f := ⟨.readAck f, _, rfl, rfl, rfl, guarded_eq_some.mpr ⟨⟨hr, by simp [hnil]⟩, rfl⟩⟩
  hangs := ⟨.hangup, _, rfl, rfl, guarded_eq_some.mpr ⟨⟨hr, by simp [hnil]⟩, rfl⟩⟩

theorem Follows.nextToAck_le {i : List (Frame C)} {s : State C} (h : Follows i s)
    (hp : s.pc ≠ .returned) : s.nextToAck ≤ s.job.metadata.totalChunks := by
  cases hpc : s.pc with
  | returned => exact absurd hpc hp
  | acked => exact (h.late (.inl hpc)).le
  | verdict => exact (h.late (.inr hpc)).le
  | _ => exact (h.looping (by simp [hpc, Pc.looping])).le

theorem stands {i : List (Frame C)} {s : State C} (h : Follows i s) :
    (sender C).Stands (fun a => a.clean) s := by
  cases hpc : s.pc with
  | returned => exact .closed (by simp [sender, hpc])
  | flush =>
    cases hr : s.bufferedFrames.ready with
    | none =>
      exact .moves .flushed _ rfl rfl rfl (guarded_eq_some.mpr ⟨⟨hpc, hr⟩, rfl⟩)
    | some f =>
      exact .moves (.write f) _ rfl rfl rfl (guarded_eq_some.mpr ⟨⟨hpc, hr⟩, rfl⟩)
  | check => exact .moves .proceed _ rfl rfl rfl (guarded_eq_some.mpr ⟨hpc, rfl⟩)
  | acked => exact .moves .finish _ rfl rfl rfl (guarded_eq_some.mpr ⟨hpc, rfl⟩)
  | select =>
    cases hacks : s.acks with
    | nil =>
      have hp : s.pc ≠ .returned := by simp [hpc]
      exact .waits (waiting (h.reading_of_empty hp (h.nextToAck_le hp) hacks) hacks)
    | cons f rest =>
      by_cases htag : f.tag = tagChunkAck
      · exact .moves (.ack f) _ rfl rfl rfl
          (guarded_eq_some.mpr ⟨⟨hpc, by rw [hacks]; rfl, htag⟩, rfl⟩)
      · exact .moves (.badAck f) _ rfl rfl rfl
          (guarded_eq_some.mpr ⟨⟨hpc, by rw [hacks]; rfl, htag⟩, rfl⟩)
  | verdict =>
    cases hacks : s.acks with
    | nil =>
      have hp : s.pc ≠ .returned := by simp [hpc]
      exact .waits (waiting (h.reading_of_empty hp (h.nextToAck_le hp) hacks) hacks)
    | cons f rest =>
      exact .moves (.verdict f) _ rfl rfl rfl
        (guarded_eq_some.mpr ⟨⟨hpc, by rw [hacks]; rfl⟩, rfl⟩)

/-- A call that has only to wait has no answer left to look at, and either its window is full
or everything is on the stream. -/
theorem drained {i o : List (Frame C)} {s : State C} (hf : Follows i s) (hacc : Accounts o s)
    (hg : Genuine o s) (hp : s.pc ≠ .returned) (hle : s.nextToAck ≤ s.bufferedFrames.next)
    (stuck : ∀ a t, a.clean → (sender C).recvs a = [] → (sender C).hangup a = false →
      step s a ≠ some t) :
    s.acks = [] ∧ (s.pc = .select → s.nextToAck + windowSize ≤ s.bufferedFrames.next ∨
      s.bufferedFrames.next = s.job.metadata.totalChunks) ∧
      (s.pc = .verdict ∨ s.pc = .select) := by
  have hpc : s.pc = .verdict ∨ s.pc = .select := by
    cases hpc : s.pc with
    | returned => exact absurd hpc hp
    | verdict => exact .inl rfl
    | select => exact .inr rfl
    | flush =>
      cases hr : s.bufferedFrames.ready with
      | none => exact absurd (guarded_eq_some.mpr ⟨⟨hpc, hr⟩, rfl⟩) (stuck .flushed _ rfl rfl rfl)
      | some f => exact absurd (guarded_eq_some.mpr ⟨⟨hpc, hr⟩, rfl⟩) (stuck (.write f) _ rfl rfl rfl)
    | check => exact absurd (guarded_eq_some.mpr ⟨hpc, rfl⟩) (stuck .proceed _ rfl rfl rfl)
    | acked => exact absurd (guarded_eq_some.mpr ⟨hpc, rfl⟩) (stuck .finish _ rfl rfl rfl)
  have hacks : s.acks = [] := by
    cases hacks : s.acks with
    | nil => rfl
    | cons f rest =>
      have hhead : s.acks.head? = some f := by rw [hacks]; rfl
      rcases hpc with hpc | hpc
      · exact absurd (guarded_eq_some.mpr ⟨⟨hpc, hhead⟩, rfl⟩) (stuck (.verdict f) _ rfl rfl rfl)
      · by_cases htag : f.tag = tagChunkAck
        · exact absurd (guarded_eq_some.mpr ⟨⟨hpc, hhead, htag⟩, rfl⟩) (stuck (.ack f) _ rfl rfl rfl)
        · exact absurd (guarded_eq_some.mpr ⟨⟨hpc, hhead, htag⟩, rfl⟩)
            (stuck (.badAck f) _ rfl rfl rfl)
  refine ⟨hacks, fun hsel => ?_, hpc⟩
  by_cases hwin : s.bufferedFrames.next - s.nextToAck < windowSize
  · right
    have hnet : s.net = [] := by
      cases hnet : s.net with
      | nil => rfl
      | cons item rest =>
        exact absurd (guarded_eq_some.mpr ⟨⟨hsel, by rw [hnet]; rfl, hle, hwin⟩, rfl⟩)
          (stuck (.take item) _ rfl rfl rfl)
    have henc : s.encrypting = [] := by
      cases henc : s.encrypting with
      | nil => rfl
      | cons item rest =>
        exact absurd (guarded_eq_some.mpr ⟨⟨by simp [henc], by simp [hnet, netCapacity]⟩, rfl⟩)
          (stuck (.encrypted item) _ rfl rfl rfl)
    have hprep : s.preparing = none := by
      cases hprep : s.preparing with
      | none => rfl
      | some data =>
        exact absurd (Option.map_eq_some_iff.mpr ⟨data, hprep, rfl⟩) (stuck .spawn _ rfl rfl rfl)
    have hnext : s.nextChunk = s.job.metadata.totalChunks := by
      by_contra hne
      have hlt : s.nextChunk < s.job.metadata.totalChunks := lt_of_le_of_ne hg.next hne
      by_cases htasks : s.tasks < maxTasks
      · exact stuck .prepare _ rfl rfl rfl (guarded_eq_some.mpr
          ⟨⟨hf.paused.2, by simp [hf.paused.1], hprep, hlt, htasks⟩, rfl⟩)
      · have hfin : 0 < s.finished := by
          have htasks' : ¬ s.encrypting.length + s.finished < 8 := htasks
          rw [henc, List.length_nil] at htasks'
          omega
        exact stuck .join _ rfl rfl rfl (guarded_eq_some.mpr
          ⟨⟨hfin, .inl (Nat.not_lt.mp htasks)⟩, rfl⟩)
    by_contra hne
    have hlt : s.bufferedFrames.next < s.nextChunk :=
      lt_of_le_of_ne hacc.sent (by rw [hnext]; exact hne)
    have htally := hacc.tally s.bufferedFrames.next
    have hidle := s.bufferedFrames.ready_eq_none.mp (hacc.idle (by simp [hsel]))
    rw [henc, hnet, tally_nil, tally_nil, hidle, if_pos ⟨Nat.le_refl _, hlt⟩] at htally
    omega
  · left
    omega

/-- Whether the loop counts a frame. -/
def isAck (f : Frame C) : Bool := decide (f.tag = tagChunkAck)

/-- What the task that reads passes on of a frame. -/
def passed (f : Frame C) : Frame C :=
  if f.oversized then readFailed "Oversized message".toList else f

theorem isAck_of_passed {f : Frame C} (h : isAck (passed f)) : isAck f := by
  unfold passed at h
  split at h
  · cases h
  · exact h

theorem length_takeWhile_le (i rest : List (Frame C)) :
    (i.takeWhile isAck).length ≤ ((i ++ rest).takeWhile isAck).length := by
  rw [List.takeWhile_append]
  split
  · exact ((List.takeWhile_sublist _).length_le).trans (by rw [List.length_append]; omega)
  · exact Nat.le_refl _

theorem takeWhile_isAck_le (i : List (Frame C)) :
    (i.takeWhile isAck).length ≤ i.countP isAck := by
  calc (i.takeWhile isAck).length
      = (i.takeWhile isAck).countP isAck :=
        (List.countP_eq_length.mpr fun f hf => List.mem_takeWhile_imp hf).symm
    _ ≤ i.countP isAck := (List.takeWhile_sublist _).countP_le

/-- The acknowledgements that a sender takes first are acknowledgements that have come first. -/
theorem length_le_takeWhile {i used rest last : List (Frame C)}
    (h : i.map passed ++ last = used ++ rest) (hused : ∀ f ∈ used, isAck f)
    (hlast : ∀ f ∈ last, isAck f = false) : used.length ≤ (i.takeWhile isAck).length := by
  induction i generalizing used with
  | nil =>
    cases used with
    | nil => exact Nat.le_refl _
    | cons f used =>
      rw [List.map_nil, List.nil_append, List.cons_append] at h
      have hack := hused f List.mem_cons_self
      rw [hlast f (h ▸ List.mem_cons_self)] at hack
      cases hack
  | cons g i ih =>
    cases used with
    | nil => exact Nat.zero_le _
    | cons f used =>
      obtain ⟨rfl, htail⟩ := List.cons.inj h
      rw [List.takeWhile_cons_of_pos (isAck_of_passed (hused _ List.mem_cons_self))]
      exact Nat.succ_le_succ (ih htail fun f hf => hused f (List.mem_cons_of_mem _ hf))

/-- What has been counted of the frames that have come, whatever they are. -/
structure Counts (i : List (Frame C)) (s : State C) : Prop where
  first : startChunk s.job.metadata ≤ s.nextToAck
  counted : s.nextToAck ≤ startChunk s.job.metadata + (i.takeWhile isAck).length
  queue : s.pc ≠ .returned → ∃ used last, i.map passed ++ last = used ++ s.acks ∧
    startChunk s.job.metadata + used.length = s.nextToAck ∧ (s.reading → last = []) ∧
    (∀ f ∈ used, isAck f) ∧ ∀ f ∈ last, isAck f = false

theorem Counts.start (job : Job C) : Counts [] (State.start job) where
  first := Nat.le_refl _
  counted := Nat.le_add_right _ _
  queue _ := ⟨[], [], rfl, rfl, fun _ => rfl, fun f hf => (by cases hf), fun f hf => (by cases hf)⟩

theorem Counts.step {i : List (Frame C)} {s t : State C} {a : Act C} (h : Counts i s)
    (hs : step s a = some t) : Counts (i ++ (sender C).recvs a) t := by
  obtain ⟨h1, h2, h3⟩ := h
  cases a with
  | readAck f =>
    obtain ⟨⟨hr, -⟩, rfl⟩ := guarded_eq_some.mp hs
    refine ⟨h1, h2.trans (Nat.add_le_add_left ?_ _), fun hp => ?_⟩
    · exact length_takeWhile_le i _
    · obtain ⟨used, last, hq, hlen, hread, hused, hlast⟩ := h3 hp
      rw [hread hr, List.append_nil] at hq
      refine ⟨used, [], ?_, hlen, fun _ => rfl, hused, fun f hf => (by cases hf)⟩
      show (i ++ [f]).map passed ++ [] = used ++ (s.acks ++ [passed f])
      rw [List.append_nil, List.map_append, hq, List.append_assoc]
      rfl
  | hangup =>
    obtain ⟨⟨hr, -⟩, rfl⟩ := guarded_eq_some.mp hs
    simp only [sender, List.append_nil]
    refine ⟨h1, h2, fun hp => ?_⟩
    obtain ⟨used, last, hq, hlen, hread, hused, -⟩ := h3 hp
    rw [hread hr, List.append_nil] at hq
    refine ⟨used, [readFailed "Failed to read message length".toList],
      by rw [hq, List.append_assoc], hlen, fun hr' => absurd hr' Bool.false_ne_true, hused,
      fun f hf => ?_⟩
    rw [List.mem_singleton.mp hf]
    rfl
  | readError detail =>
    obtain ⟨⟨hr, -⟩, rfl⟩ := guarded_eq_some.mp hs
    simp only [sender, List.append_nil]
    refine ⟨h1, h2, fun hp => ?_⟩
    obtain ⟨used, last, hq, hlen, hread, hused, -⟩ := h3 hp
    rw [hread hr, List.append_nil] at hq
    refine ⟨used, [readFailed detail], by rw [hq, List.append_assoc], hlen,
      fun hr' => absurd hr' Bool.false_ne_true, hused, fun f hf => ?_⟩
    rw [List.mem_singleton.mp hf]
    rfl
  | ack f =>
    obtain ⟨⟨hp, hf, htag⟩, rfl⟩ := guarded_eq_some.mp hs
    obtain ⟨used, last, hq, hlen, hread, hused, hlast⟩ := h3 (by rw [hp]; simp)
    obtain ⟨rest, hrest⟩ := List.head?_eq_some_iff.mp hf
    have hq' : i.map passed ++ last = (used ++ [f]) ++ rest := by
      rw [hq, hrest, List.append_assoc]
      rfl
    have hused' : ∀ g ∈ used ++ [f], isAck g := by
      intro g hg
      rcases List.mem_append.mp hg with hg | hg
      · exact hused g hg
      · rw [List.mem_singleton.mp hg]
        exact decide_eq_true htag
    have hcounted := length_le_takeWhile hq' hused' hlast
    rw [List.length_append, List.length_singleton] at hcounted
    simp only [sender, List.append_nil]
    refine ⟨Nat.le_succ_of_le h1, ?_, fun _ => ⟨used ++ [f], last, ?_, ?_, hread, hused', hlast⟩⟩
    · show s.nextToAck + 1 ≤ _
      dsimp only
      omega
    · rw [hq', hrest]
      rfl
    · show _ + (used ++ [f]).length = s.nextToAck + 1
      rw [List.length_append, List.length_singleton]
      dsimp only
      omega
  | spawn =>
    obtain ⟨data, -, rfl⟩ := Option.map_eq_some_iff.mp hs
    simp only [sender, List.append_nil]
    exact ⟨h1, h2, h3⟩
  | pause =>
    obtain rfl := Option.some.inj hs
    simp only [sender, List.append_nil]
    exact ⟨h1, h2, h3⟩
  | writeError | badAck | pipelineError | verdict | closed =>
    obtain ⟨-, rfl⟩ := guarded_eq_some.mp hs
    simp only [sender, List.append_nil]
    exact ⟨h1, h2, fun hp => absurd rfl hp⟩
  | proceed | finish =>
    obtain ⟨hpc, rfl⟩ := guarded_eq_some.mp hs
    simp only [sender, List.append_nil]
    exact ⟨h1, h2, fun _ => h3 (by rw [hpc]; simp)⟩
  | take | write | flushed =>
    obtain ⟨⟨hpc, -⟩, rfl⟩ := guarded_eq_some.mp hs
    simp only [sender, List.append_nil]
    exact ⟨h1, h2, fun _ => h3 (by rw [hpc]; simp)⟩
  | _ =>
    simp only [Sender.step, guarded_eq_some] at hs
    obtain ⟨-, rfl⟩ := hs
    simp only [sender, List.append_nil]
    exact ⟨h1, h2, h3⟩

end Sender

end P2PTransfer.Cli
