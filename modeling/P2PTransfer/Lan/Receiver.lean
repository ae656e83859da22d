import P2PTransfer.Alpn.Receiver
import P2PTransfer.Lan.Sender

/-!
# The LAN receiver

`tcp_compat::handle_incoming` after its reply: the function itself, the blocking task
that decrypts the blocks and writes the file, and the channel between them. Blocks are
numbered by a counter of the receiver's own; the number in a frame is not looked at.

## Main definitions

- `Receiver.State`, `Receiver.Act`, `receiver` — the loop as a party
- `compatAdmission` — how the function answers an offer
-/

namespace P2PTransfer.Lan

open Transition

variable {C : Primitives}

inductive RecvError where
  | cancelled
  | network (detail : Text)
  | malformed
  | writerDied
  | sender (message : Text)
  | unexpectedTag (tag : UInt8)
  | flush
  | verify (detail : Text)
  | reply (detail : Text)
  | mismatch
deriving DecidableEq

/-- The text that an error ends the loop with. -/
def RecvError.text : RecvError → Text
  | .cancelled => "cancelled".toList
  | .network e => "Network read error from peer: ".toList ++ e
  | .malformed => "Malformed chunk frame".toList
  | .writerDied => "Disk writer task died".toList
  | .sender e => "Sender error: ".toList ++ e
  | .unexpectedTag tag => "Unexpected message tag: ".toList ++ Nat.toDigits 16 tag.toNat
  | .flush => "Disk flush failed".toList
  | .verify e => e
  | .reply e => e
  | .mismatch => "Checksum mismatch".toList

def isCancel (message : Text) : Bool :=
  Alpn.contains message "cancelled".toList || Alpn.contains message "Cancelled".toList

namespace Receiver

inductive Pc where
  | check
  | read
  | forward
  | close
  | sendCancel
  | drain
  | join
  | verify
  | sendComplete
  | sendMismatch
  | returned
deriving DecidableEq, Repr

/-- The blocking task. -/
inductive WriterPc where
  | openFile
  | write
  | done
  | failed
deriving DecidableEq, Repr

def WriterPc.ended : WriterPc → Bool
  | .done | .failed => true
  | _ => false

/-- The outcome of the loop. -/
inductive LoopResult where
  | running
  | ended
  | failed (e : RecvError)
deriving DecidableEq

structure State (C : Primitives) where
  key : C.Key
  metadata : TransferMetadata C
  files : Files
  path : Path
  resuming : Bool
  pc : Pc := .check
  paused : Bool := false
  pauses : Nat
  cancelled : Bool := false
  writer : WriterPc := .openFile
  buffer : Bytes := []
  channel : List (Nat × Bytes) := []
  closed : Bool := false
  held : Option Bytes := none
  blockIndex : Nat
  bytesReceived : Nat
  receivedHash : Option (Payload C) := none
  loop : LoopResult := .running
  event : Option (Alpn.TransferEvent C) := none
  result : Option (Except RecvError Unit) := none

/-- The loop after the reply. -/
def State.start (pauses : Nat) (fs : Files) (outputDir : Text) (key : C.Key)
    (metadata : TransferMetadata C) : State C where
  pauses := pauses
  key := key
  metadata := metadata
  files := fs
  path := outputPath outputDir metadata.fileName
  resuming := (TcpCompat.resume fs (outputPath outputDir metadata.fileName) metadata).2
  blockIndex :=
    (TcpCompat.resume fs (outputPath outputDir metadata.fileName) metadata).1 / lanBlockSize
  bytesReceived := (TcpCompat.resume fs (outputPath outputDir metadata.fileName) metadata).1

inductive Act (C : Primitives) where
  | proceed
  | seeCancel
  | chunk (f : Frame C) (data : Bytes)
  | complete (f : Frame C)
  | other (f : Frame C)
  | hangup
  | readError (detail : Text)
  | forward (data : Bytes)
  | writerGone
  | close
  | sendCancel
  | drained (e : RecvError)
  | join
  | joinError
  | verify
  | verifyError (detail : Text)
  | sendComplete
  | sendMismatch
  | completeError (detail : Text)
  | openFile
  | writeBlock (index : Nat) (data plain : Bytes)
  | decryptError (index : Nat) (data : Bytes)
  | flush
  | diskError
  | pause
  | resume
  | cancel

/-- The actions of a run without faults and cancellation. -/
def Act.clean : Act C → Bool
  | .readError _ | .verifyError _ | .completeError _ | .diskError | .cancel => false
  | _ => true

/-- The encrypted data of a chunk frame. -/
def chunkData (f : Frame C) : Option Bytes :=
  match f.payload with
  | .chunk _ _ data => if f.tag = tagChunk ∧ ¬ f.oversized then some data else none
  | _ => none

/-- Why a frame that is neither a chunk nor the end of the file ends the loop. -/
def verdict (f : Frame C) : RecvError :=
  if f.oversized then .network "Oversized message".toList
  else if f.tag = tagChunk then .malformed
  else if f.tag = tagError then
    match f.payload with
    | .text t => if isCancel t then .cancelled else .sender t
    | _ => .sender []
  else .unexpectedTag f.tag

def State.content (s : State C) : Bytes := (s.files s.path).getD []

/-- Where an ended loop goes on. -/
def LoopResult.next : LoopResult → Pc
  | .failed e => if isCancel e.text then .sendCancel else .drain
  | _ => .join

def step (s : State C) : Act C → Option (State C)
  | .proceed => guarded (s.pc = .check ∧ ¬ s.paused ∧ ¬ s.cancelled) { s with pc := .read }
  | .seeCancel => guarded (s.pc = .check ∧ s.cancelled)
      { s with pc := .close, loop := .failed .cancelled }
  | .chunk f data => guarded (s.pc = .read ∧ chunkData f = some data)
      { s with pc := .forward, held := some data }
  | .complete f => guarded (s.pc = .read ∧ f.tag = tagComplete ∧ ¬ f.oversized)
      { s with pc := .close, loop := .ended, receivedHash := some f.payload }
  | .other f => guarded (s.pc = .read ∧ chunkData f = none ∧ (f.tag = tagComplete → f.oversized))
      { s with pc := .close, loop := .failed (verdict f) }
  | .hangup => guarded (s.pc = .read)
      { s with pc := .close, loop := .failed (.network "Failed to read message length".toList) }
  | .readError detail => guarded (s.pc = .read)
      { s with pc := .close, loop := .failed (.network detail) }
  | .forward data => guarded (s.pc = .forward ∧ s.held = some data ∧ ¬ s.writer.ended ∧
        s.channel.length < channelCapacity)
      { s with pc := .check, held := none, channel := s.channel ++ [(s.blockIndex, data)],
               blockIndex := s.blockIndex + 1,
               bytesReceived := s.bytesReceived + (data.length - tagLen) }
  | .writerGone => guarded (s.pc = .forward ∧ s.writer.ended)
      { s with pc := .close, loop := .failed .writerDied }
  | .close => guarded (s.pc = .close) { s with pc := s.loop.next, closed := true }
  | .sendCancel => guarded (s.pc = .sendCancel)
      { s with pc := .drain, event := some .cancelled }
  | .drained e => guarded (s.pc = .drain ∧ s.writer.ended ∧ s.loop = .failed e)
      { s with pc := .returned, files := s.files.set s.path none,
               result := some (.error (if isCancel e.text then .cancelled else e)) }
  | .join => guarded (s.pc = .join ∧ s.writer = .done) { s with pc := .verify }
  | .joinError => guarded (s.pc = .join ∧ s.writer = .failed)
      { s with pc := .returned, files := s.files.set s.path none, result := some (.error .flush) }
  | .verify => guarded (s.pc = .verify)
      { s with pc := if C.blake3 s.content = s.metadata.checksum then .sendComplete
                     else .sendMismatch }
  | .verifyError detail => guarded (s.pc = .verify)
      { s with pc := .returned, files := s.files.set s.path none,
               result := some (.error (.verify detail)) }
  | .sendComplete => guarded (s.pc = .sendComplete)
      { s with pc := .returned, event := some (.complete s.path s.metadata.checksum),
               result := some (.ok ()) }
  | .sendMismatch => guarded (s.pc = .sendMismatch)
      { s with pc := .returned, files := s.files.set s.path none,
               result := some (.error .mismatch) }
  | .completeError detail => guarded (s.pc = .sendComplete)
      { s with pc := .returned, result := some (.error (.reply detail)) }
  -- the writer appends to a file that is resumed, at its own end
  | .openFile => guarded (s.writer = .openFile)
      { s with writer := .write,
               files := if s.resuming then s.files else s.files.set s.path (some []) }
  | .writeBlock index data plain => guarded (s.writer = .write ∧
        s.channel.head? = some (index, data) ∧
        C.decrypt s.key (buildNonce s.metadata.noncePrefix index) data = some plain)
      (let written := BufWriter.writeAll lanBlockSize s.content s.buffer plain
       { s with channel := s.channel.tail, files := s.files.set s.path (some written.1),
                buffer := written.2 })
  | .decryptError index data => guarded (s.writer = .write ∧
        s.channel.head? = some (index, data) ∧
        C.decrypt s.key (buildNonce s.metadata.noncePrefix index) data = none)
      { s with writer := .failed }
  | .flush => guarded (s.writer = .write ∧ s.channel = [] ∧ s.closed)
      { s with writer := .done, buffer := [],
               files := s.files.set s.path (some (s.content ++ s.buffer)) }
  | .diskError => guarded (¬ s.writer.ended) { s with writer := .failed }
  | .pause => guarded (0 < s.pauses) { s with paused := true, pauses := s.pauses - 1 }
  | .resume => guarded s.paused { s with paused := false }
  | .cancel => some { s with cancelled := true }

end Receiver

/-- `tcp_compat::handle_incoming` after the reply. -/
def receiver (C : Primitives) : Party (Receiver.State C) (Receiver.Act C) (Frame C) where
  step := Receiver.step
  recvs
    | .chunk f _ | .complete f | .other f => [f]
    | _ => []
  sends s
    | .sendCancel => [Frame.ofText tagError "Transfer cancelled by user".toList]
    | .sendComplete => [⟨tagComplete, s.receivedHash.getD (.text [])⟩]
    | .sendMismatch => [Frame.ofText tagError "Checksum mismatch".toList]
    | _ => []
  hangup
    | .hangup => true
    | _ => false
  closed s := decide (s.pc = .returned)

/-- `tcp_compat::handle_incoming` up to the reply. Its complaints are never sent: the
future that would send them is dropped. -/
def compatAdmission (C : Primitives) (pauses : Nat) (secret : C.Secret) (fs : Files)
    (outputDir : Text) : Admission C (Receiver.State C) where
  secret := secret
  asks := true
  reply m := Frame.ofText tagMetadata
    (acceptText (TcpCompat.resume fs (outputPath outputDir m.fileName) m).1)
  start := Receiver.State.start pauses fs outputDir
  complaint _ _ := []

namespace Receiver

def Pc.looping : Pc → Bool
  | .check | .read | .forward => true
  | _ => false

/-- After the writer task has been joined. -/
def Pc.late : Pc → Bool
  | .verify | .sendComplete | .sendMismatch | .returned => true
  | _ => false

/-- The actions of a run in which only blocks and their end come in and every block
is genuine. -/
def Act.smooth : Act C → Bool
  | .other _ | .hangup | .decryptError _ _ => false
  | a => a.clean

/-- What the output file holds before the transfer. -/
def State.base (fs : Files) (s : State C) : Bytes :=
  if s.resuming then (fs s.path).getD [] else []

/-- What the stream holds after the blocks. -/
def State.ending (s : State C) : List (Frame C) :=
  s.receivedHash.toList.map fun p => ⟨tagComplete, p⟩

theorem step_const {s t : State C} {a : Act C} (hs : step s a = some t) :
    t.key = s.key ∧ t.metadata = s.metadata ∧ t.path = s.path ∧ t.resuming = s.resuming := by
  cases a with
  | cancel =>
    obtain rfl := Option.some.inj hs
    exact ⟨rfl, rfl, rfl, rfl⟩
  | _ =>
    simp only [step, guarded_eq_some] at hs
    obtain ⟨-, rfl⟩ := hs
    exact ⟨rfl, rfl, rfl, rfl⟩

/-- How a receiver that nothing disturbs goes on. -/
structure Undisturbed (s : State C) : Prop where
  cancelled : s.cancelled = false
  writer : s.writer ≠ .failed
  pc : s.pc ≠ .sendCancel ∧ s.pc ≠ .drain
  loop : s.loop = if s.pc.looping then .running else .ended
  closed : s.closed = false ↔ s.pc.looping ∨ s.pc = .close
  done : s.writer = .done → s.closed
  late : s.pc.late → s.writer = .done
  held : s.held = none ↔ s.pc ≠ .forward
  hash : s.receivedHash = none ↔ s.pc.looping

theorem Undisturbed.next {s : State C} (h : Undisturbed s) (hp : s.pc = .close) :
    s.loop.next = .join := by
  have hl : s.loop = .ended := by simpa [hp, Pc.looping] using h.loop
  simp [hl, LoopResult.next]

theorem Undisturbed.step {s t : State C} {a : Act C} (h : Undisturbed s) (ha : a.smooth)
    (hs : step s a = some t) : Undisturbed t := by
  have hnext := h.next
  obtain ⟨h1, h2, h3, h4, h5, h6, h7, h8, h9⟩ := h
  cases a with
  | other f => cases ha
  | hangup => cases ha
  | decryptError index data => cases ha
  | readError detail => cases ha
  | verifyError detail => cases ha
  | completeError detail => cases ha
  | diskError => cases ha
  | cancel => cases ha
  | close =>
    simp only [Receiver.step, guarded_eq_some] at hs
    obtain ⟨g, rfl⟩ := hs
    have hl : s.loop = .ended := by simpa [g, Pc.looping] using h4
    have hn := hnext g
    refine ⟨h1, h2, by simp [hn], ?_, by simp [hn, Pc.looping], fun _ => rfl,
      by simp [hn, Pc.late], ?_, ?_⟩
    · show s.loop = if s.loop.next.looping then .running else .ended
      rw [hn, hl]
      rfl
    · simpa [hn, g] using h8
    · simpa [hn, g, Pc.looping] using h9
  | verify =>
    simp only [Receiver.step, guarded_eq_some] at hs
    obtain ⟨g, rfl⟩ := hs
    have hw := h7 (by simp [g, Pc.late])
    split <;> refine ⟨h1, h2, ?_, ?_, ?_, h6, fun _ => hw, ?_, ?_⟩ <;>
      simp_all [Pc.looping]
  | _ =>
    simp only [Receiver.step, guarded_eq_some] at hs
    obtain ⟨g, rfl⟩ := hs
    refine ⟨?_, ?_, ?_, ?_, ?_, ?_, ?_, ?_, ?_⟩ <;> first
      | assumption
      | grind -ring -linarith [Pc.looping, Pc.late, WriterPc.ended]

theorem chunkData_eq_some {f : Frame C} {data : Bytes} (h : chunkData f = some data) :
    f.tag = tagChunk ∧ ∃ index compressed, f.payload = .chunk index compressed data := by
  unfold chunkData at h
  split at h
  · next index compressed _ hp =>
    simp only [Option.ite_none_right_eq_some, Option.some.injEq] at h
    exact ⟨h.1.1, index, compressed, h.2 ▸ hp⟩
  · simp at h

/-- What a receiver that nothing disturbs answers at the end. -/
structure Replies (o : List (Frame C)) (s : State C) : Prop where
  fresh : s.pc ≠ .returned → s.result = none ∧ o = []
  mismatch : s.pc = .sendMismatch → C.blake3 s.content ≠ s.metadata.checksum
  returned : s.pc = .returned →
    (s.result = some (.error .mismatch) ∧ o = [Frame.ofText tagError "Checksum mismatch".toList]) ∨
    (s.result = some (.ok ()) ∧ s.event = some (.complete s.path s.metadata.checksum) ∧
      ∃ p, s.receivedHash = some p ∧ o = [⟨tagComplete, p⟩])

theorem Replies.start (pauses : Nat) (fs : Files) (outputDir : Text) (key : C.Key)
    (m : TransferMetadata C) :
    Replies [] (State.start pauses fs outputDir key m) := by
  constructor <;> simp [State.start]

theorem Replies.step {o : List (Frame C)} {s t : State C} {a : Act C} (h : Replies o s)
    (hu : Undisturbed s) (ha : a.smooth) (hs : step s a = some t) :
    Replies (o ++ (receiver C).sends s a) t := by
  obtain ⟨h1, h2, h3⟩ := h
  have hlate : s.pc.late → s.writer = .done := hu.late
  cases a with
  | other f => cases ha
  | hangup => cases ha
  | decryptError index data => cases ha
  | readError detail => cases ha
  | verifyError detail => cases ha
  | completeError detail => cases ha
  | diskError => cases ha
  | cancel => cases ha
  | sendComplete =>
    simp only [Receiver.step, receiver, guarded_eq_some] at hs ⊢
    obtain ⟨g, rfl⟩ := hs
    obtain ⟨p, hp⟩ : ∃ p, s.receivedHash = some p := by
      refine Option.ne_none_iff_exists'.mp fun hn => ?_
      have := hu.hash.mp hn
      simp [g, Pc.looping] at this
    refine ⟨by simp, by simp, fun _ => .inr ⟨rfl, rfl, p, hp, ?_⟩⟩
    simp [hp, (h1 (by simp [g])).2]
  | sendMismatch =>
    simp only [Receiver.step, receiver, guarded_eq_some] at hs ⊢
    obtain ⟨g, rfl⟩ := hs
    exact ⟨by simp, by simp, fun _ => .inl ⟨rfl, by rw [(h1 (by simp [g])).2, List.nil_append]⟩⟩
  | verify =>
    simp only [Receiver.step, receiver, List.append_nil, guarded_eq_some] at hs ⊢
    obtain ⟨g, rfl⟩ := hs
    have hr := h1 (by simp [g])
    refine ⟨fun _ => hr, fun hp => ?_, fun hp => ?_⟩
    · intro he
      have he : C.blake3 s.content = s.metadata.checksum := he
      simp [he] at hp
    · exfalso
      dsimp only at hp
      split at hp <;> simp at hp
  | close =>
    simp only [Receiver.step, receiver, List.append_nil, guarded_eq_some] at hs ⊢
    obtain ⟨g, rfl⟩ := hs
    have hnext := hu.next g
    exact ⟨fun _ => h1 (by simp [g]), by simp [hnext], by simp [hnext]⟩
  | sendCancel =>
    simp only [Receiver.step, guarded_eq_some] at hs
    exact absurd hs.1 hu.pc.1
  | drained e =>
    simp only [Receiver.step, guarded_eq_some] at hs
    exact absurd hs.1.1 hu.pc.2
  | joinError =>
    simp only [Receiver.step, guarded_eq_some] at hs
    exact absurd hs.1.2 hu.writer
  | _ =>
    simp only [Receiver.step, receiver, List.append_nil, guarded_eq_some] at hs ⊢
    obtain ⟨g, rfl⟩ := hs
    refine ⟨?_, ?_, ?_⟩ <;> first
      | assumption
      | grind -ring -linarith [Pc.late, State.content]

/-- The blocks that are written and those that are on the way to the file. -/
structure Stores (fs : Files) (k : Nat) (ws qs : List Bytes) (i : List (Frame C))
    (s : State C) : Prop where
  input : i = frames s.key s.metadata.noncePrefix k (ws ++ qs) ++ s.ending
  queue : s.channel ++ s.held.toList.map (fun d => (s.blockIndex, d)) =
    sealed s.key s.metadata.noncePrefix (k + ws.length) qs
  index : s.blockIndex + s.held.toList.length = k + ws.length + qs.length
  opening : s.writer = .openFile → ws = [] ∧ s.buffer = [] ∧ s.files = fs
  writing : s.writer = .write →
    s.content ++ s.buffer = s.base fs ++ ws.flatten ∧ s.buffer.length ≤ lanBlockSize
  done : s.writer = .done → qs = [] ∧
    (s.result ≠ some (.error .mismatch) → s.files s.path = some (s.base fs ++ ws.flatten)) ∧
    (s.result = some (.error .mismatch) → C.blake3 (s.base fs ++ ws.flatten) ≠ s.metadata.checksum)

theorem Stores.start (pauses : Nat) (fs : Files) (outputDir : Text) (key : C.Key)
    (m : TransferMetadata C) :
    Stores fs (State.start pauses fs outputDir key m).blockIndex [] [] [] (State.start pauses fs outputDir key m) := by
  constructor <;> simp [State.start, State.ending, frames, sealed]

theorem Stores.step {fs : Files} {k : Nat} {ws qs : List Bytes} {i o : List (Frame C)}
    {s t : State C} {a : Act C} (h : Stores fs k ws qs i s) (hu : Undisturbed s)
    (hr : Replies o s) (ha : a.smooth)
    (hin : ∀ f ∈ (receiver C).recvs a, (∃ d, f = Frame.ofChunk (k + ws.length + qs.length) false
      (C.encrypt s.key (buildNonce s.metadata.noncePrefix (k + ws.length + qs.length)) d)) ∨
        f.tag = tagComplete)
    (hs : Receiver.step s a = some t) :
    ∃ ws' qs', Stores fs k ws' qs' (i ++ (receiver C).recvs a) t := by
  obtain ⟨h1, h2, h3, h4, h5, h6⟩ := h
  cases a with
  | other f => cases ha
  | hangup => cases ha
  | decryptError index data => cases ha
  | readError detail => cases ha
  | verifyError detail => cases ha
  | completeError detail => cases ha
  | diskError => cases ha
  | cancel => cases ha
  | drained e =>
    simp only [Receiver.step, guarded_eq_some] at hs
    exact absurd hs.1.1 hu.pc.2
  | joinError =>
    simp only [Receiver.step, guarded_eq_some] at hs
    exact absurd hs.1.2 hu.writer
  | chunk f data =>
    simp only [Receiver.step, receiver, guarded_eq_some] at hs hin ⊢
    obtain ⟨⟨g, hdata⟩, rfl⟩ := hs
    have hheld : s.held = none := hu.held.mpr (by simp [g])
    have hhash : s.receivedHash = none := hu.hash.mpr (by simp [g, Pc.looping])
    have hidx : s.blockIndex = k + ws.length + qs.length := by simpa [hheld] using h3
    obtain ⟨htag, index, compressed, hpayload⟩ := chunkData_eq_some hdata
    obtain ⟨d, hd⟩ := (hin f (by simp)).resolve_right (by simp [htag, tagChunk, tagComplete])
    obtain rfl : data = C.encrypt s.key (buildNonce s.metadata.noncePrefix
        (k + ws.length + qs.length)) d := by
      rw [hd] at hpayload
      simp only [Frame.ofChunk, Payload.chunk.injEq] at hpayload
      exact hpayload.2.2.symm
    refine ⟨ws, qs ++ [d], ?_, ?_, ?_, h4, h5, fun hw => ?_⟩
    · rw [← List.append_assoc ws qs, frames_append, List.length_append, ← Nat.add_assoc, h1]
      simp [State.ending, hhash, frames, sealed, hd]
    · rw [sealed_append, ← h2, hidx]
      simp [hheld, sealed]
    · simp [hidx, Nat.add_assoc]
    · have hopen := hu.closed.mpr (.inl (by simp [g, Pc.looping]))
      simp [hu.done hw] at hopen
  | complete f =>
    simp only [Receiver.step, receiver, guarded_eq_some] at hs ⊢
    obtain ⟨⟨g, htag, -⟩, rfl⟩ := hs
    have hhash : s.receivedHash = none := hu.hash.mpr (by simp [g, Pc.looping])
    refine ⟨ws, qs, ?_, h2, h3, h4, h5, h6⟩
    rw [h1]
    simp [State.ending, hhash, ← htag]
  | forward data =>
    simp only [Receiver.step, receiver, List.append_nil, guarded_eq_some] at hs ⊢
    obtain ⟨⟨g, hheld, -⟩, rfl⟩ := hs
    refine ⟨ws, qs, h1, ?_, ?_, h4, h5, h6⟩
    · simpa [hheld] using h2
    · simpa [hheld] using h3
  | openFile =>
    simp only [Receiver.step, receiver, List.append_nil, guarded_eq_some] at hs ⊢
    obtain ⟨g, rfl⟩ := hs
    obtain ⟨rfl, hb, hf⟩ := h4 g
    refine ⟨[], qs, h1, h2, h3, by simp, fun _ => ⟨?_, by simp [hb]⟩, by simp⟩
    cases hr : s.resuming <;> simp [State.content, State.base, hf, hb]
  | writeBlock index data plain =>
    simp only [Receiver.step, receiver, List.append_nil, guarded_eq_some] at hs ⊢
    obtain ⟨⟨g, hhead, hdec⟩, rfl⟩ := hs
    obtain ⟨rest, hrest⟩ := List.head?_eq_some_iff.mp hhead
    obtain ⟨hc, hb⟩ := h5 g
    cases qs with
    | nil => simp [hrest, sealed] at h2
    | cons d qs =>
      simp only [hrest, sealed, List.cons_append, List.cons.injEq, Prod.mk.injEq] at h2
      obtain ⟨⟨rfl, rfl⟩, h2⟩ := h2
      obtain rfl : d = plain := by
        rw [C.decrypt_encrypt] at hdec
        exact Option.some.inj hdec
      have hall := BufWriter.writeAll_append lanBlockSize s.content s.buffer d hb
      refine ⟨ws ++ [d], qs, ?_, ?_, ?_, by simp [g], fun _ => ⟨?_, ?_⟩, by simp [g]⟩
      · rw [List.append_assoc]
        exact h1
      · simpa [hrest, Nat.add_assoc] using h2
      · simpa [Nat.add_assoc, Nat.add_comm 1] using h3
      · show ((s.files.set s.path (some _)) s.path).getD [] ++ _ = _
        rw [Files.set_self, Option.getD_some, hall, hc]
        simp [State.base]
      · exact BufWriter.writeAll_buf_le lanBlockSize s.content s.buffer d hb
  | flush =>
    simp only [Receiver.step, receiver, List.append_nil, guarded_eq_some] at hs ⊢
    obtain ⟨⟨g, hch, hcl⟩, rfl⟩ := hs
    obtain ⟨hc, -⟩ := h5 g
    have hheld : s.held = none := hu.held.mpr fun hp => by
      have := hu.closed.mpr (.inl (by simp [hp, Pc.looping]))
      simp [hcl] at this
    have hqs : qs = [] := by
      cases qs with
      | nil => rfl
      | cons d qs => simp [hch, hheld, sealed] at h2
    have hpc : s.pc ≠ .returned := fun hp => by
      have := hu.late (by simp [hp, Pc.late])
      simp [g] at this
    have hres := (hr.fresh hpc).1
    refine ⟨ws, qs, h1, h2, h3, by simp, by simp, fun _ => ⟨hqs, fun _ => ?_, by simp [hres]⟩⟩
    show (s.files.set s.path (some (s.content ++ s.buffer))) s.path = _
    rw [Files.set_self, hc]
    rfl
  | sendMismatch =>
    simp only [Receiver.step, receiver, List.append_nil, guarded_eq_some] at hs ⊢
    obtain ⟨g, rfl⟩ := hs
    have hw := hu.late (by simp [g, Pc.late])
    refine ⟨ws, qs, h1, h2, h3, by simp [hw], by simp [hw], fun _ => ⟨(h6 hw).1, by simp, fun _ => ?_⟩⟩
    have hfile := (h6 hw).2.1 (by simp [(hr.fresh (by simp [g])).1])
    have hm := hr.mismatch g
    rw [State.content, hfile] at hm
    exact hm
  | sendComplete =>
    simp only [Receiver.step, receiver, List.append_nil, guarded_eq_some] at hs ⊢
    obtain ⟨g, rfl⟩ := hs
    refine ⟨ws, qs, h1, h2, h3, h4, h5, fun hw => ⟨(h6 hw).1, fun _ => (h6 hw).2.1 ?_, by simp⟩⟩
    simp [(hr.fresh (by simp [g])).1]
  | _ =>
    simp only [Receiver.step, receiver, List.append_nil, guarded_eq_some] at hs ⊢
    obtain ⟨g, rfl⟩ := hs
    exact ⟨ws, qs, h1, h2, h3, h4, h5, h6⟩

theorem Undisturbed.start (pauses : Nat) (fs : Files) (outputDir : Text) (key : C.Key)
    (m : TransferMetadata C) :
    Undisturbed (State.start pauses fs outputDir key m) := by
  constructor <;> simp [State.start, Pc.looping, Pc.late]

/-- The writer task never keeps the function waiting. -/
theorem writer_moves {s : State C} (hw : s.writer.ended = false)
    (hready : s.channel ≠ [] ∨ s.closed) :
    (receiver C).Stands (fun a => a.clean) s := by
  cases hwr : s.writer with
  | openFile => exact .moves .openFile _ rfl rfl rfl (guarded_eq_some.mpr ⟨hwr, rfl⟩)
  | write =>
    cases hch : s.channel with
    | nil =>
      exact .moves .flush _ rfl rfl rfl
        (guarded_eq_some.mpr ⟨⟨hwr, hch, hready.resolve_left (by simp [hch])⟩, rfl⟩)
    | cons block rest =>
      cases hd : C.decrypt s.key (buildNonce s.metadata.noncePrefix block.1) block.2 with
      | none =>
        exact .moves (.decryptError block.1 block.2) _ rfl rfl rfl
          (guarded_eq_some.mpr ⟨⟨hwr, by simp [hch], hd⟩, rfl⟩)
      | some plain =>
        exact .moves (.writeBlock block.1 block.2 plain) _ rfl rfl rfl
          (guarded_eq_some.mpr ⟨⟨hwr, by simp [hch], hd⟩, rfl⟩)
  | done => simp [hwr, WriterPc.ended] at hw
  | failed => simp [hwr, WriterPc.ended] at hw

/-- A receiver that nothing disturbs never comes to a halt by itself. -/
theorem stands {s : State C} (hu : Undisturbed s) :
    (receiver C).Stands (fun a => a.clean) s := by
  cases hpc : s.pc with
  | check =>
    cases hp : s.paused with
    | true => exact .moves .resume _ rfl rfl rfl (guarded_eq_some.mpr ⟨hp, rfl⟩)
    | false =>
      exact .moves .proceed _ rfl rfl rfl
        (guarded_eq_some.mpr ⟨⟨hpc, by simp [hp], by simp [hu.cancelled]⟩, rfl⟩)
  | read =>
    refine .waits ⟨fun f => ?_, .hangup, _, rfl, rfl, guarded_eq_some.mpr ⟨hpc, rfl⟩⟩
    cases hd : chunkData f with
    | some data => exact ⟨.chunk f data, _, rfl, rfl, rfl, guarded_eq_some.mpr ⟨⟨hpc, hd⟩, rfl⟩⟩
    | none =>
      by_cases hc : f.tag = tagComplete ∧ ¬ f.oversized
      · exact ⟨.complete f, _, rfl, rfl, rfl, guarded_eq_some.mpr ⟨⟨hpc, hc⟩, rfl⟩⟩
      · refine ⟨.other f, _, rfl, rfl, rfl, guarded_eq_some.mpr ⟨⟨hpc, hd, fun ht => ?_⟩, rfl⟩⟩
        simpa [ht] using hc
  | forward =>
    cases hheld : s.held with
    | none => exact absurd hpc (hu.held.mp hheld)
    | some data =>
      cases hw : s.writer.ended with
      | true => exact .moves .writerGone _ rfl rfl rfl (guarded_eq_some.mpr ⟨⟨hpc, hw⟩, rfl⟩)
      | false =>
        by_cases hroom : s.channel.length < channelCapacity
        · exact .moves (.forward data) _ rfl rfl rfl
            (guarded_eq_some.mpr ⟨⟨hpc, hheld, by simp [hw], hroom⟩, rfl⟩)
        · refine writer_moves hw (.inl fun hch => hroom ?_)
          simp [hch, channelCapacity]
  | close => exact .moves .close _ rfl rfl rfl (guarded_eq_some.mpr ⟨hpc, rfl⟩)
  | sendCancel => exact absurd hpc hu.pc.1
  | drain => exact absurd hpc hu.pc.2
  | join =>
    cases hw : s.writer.ended with
    | true =>
      have hdone : s.writer = .done := by
        cases hwr : s.writer with
        | done => rfl
        | failed => exact absurd hwr hu.writer
        | _ => simp [hwr, WriterPc.ended] at hw
      exact .moves .join _ rfl rfl rfl (guarded_eq_some.mpr ⟨⟨hpc, hdone⟩, rfl⟩)
    | false =>
      refine writer_moves hw (.inr ?_)
      by_contra hc
      have := hu.closed.mp (by simpa using hc)
      simp [hpc, Pc.looping] at this
  | verify => exact .moves .verify _ rfl rfl rfl (guarded_eq_some.mpr ⟨hpc, rfl⟩)
  | sendComplete => exact .moves .sendComplete _ rfl rfl rfl (guarded_eq_some.mpr ⟨hpc, rfl⟩)
  | sendMismatch => exact .moves .sendMismatch _ rfl rfl rfl (guarded_eq_some.mpr ⟨hpc, rfl⟩)
  | returned => exact .closed (by simp [receiver, hpc])

def Pc.rank : Pc → Nat
  | .check => 42
  | .read => 41
  | .forward => 40
  | .close => 30
  | .sendCancel => 28
  | .join => 27
  | .verify => 26
  | .sendComplete | .sendMismatch => 25
  | .drain => 10
  | .returned => 0

def WriterPc.rank : WriterPc → Nat
  | .openFile => 2
  | .write => 1
  | _ => 0

/-- What the receiver still has to do with the blocks that it has taken. -/
def State.rank (s : State C) : Nat :=
  s.pc.rank + s.writer.rank + 15 * s.held.toList.length + 5 * s.channel.length +
    2 * s.pauses + if s.paused then 1 else 0

theorem rank_lower {s t : State C} {a : Act C} (ha : a.clean) (hs : step s a = some t) :
    t.rank + Party.weight Frame.weight ((receiver C).sends s a) <
      s.rank + Party.weight Frame.weight ((receiver C).recvs a) := by
  cases a with
  | readError detail => cases ha
  | verifyError detail => cases ha
  | completeError detail => cases ha
  | diskError => cases ha
  | cancel => cases ha
  | chunk f data =>
    simp only [step, guarded_eq_some] at hs
    obtain ⟨⟨g, hdata⟩, rfl⟩ := hs
    obtain ⟨-, index, compressed, hp⟩ := chunkData_eq_some hdata
    simp [State.rank, receiver, g, Pc.rank, Frame.weight, hp]
    omega
  | close =>
    simp only [step, guarded_eq_some] at hs
    obtain ⟨g, rfl⟩ := hs
    have hnext : s.loop.next.rank < 30 := by
      unfold LoopResult.next
      split
      · split <;> simp [Pc.rank]
      · simp [Pc.rank]
    have hclose : s.pc.rank = 30 := by rw [g]; rfl
    simp only [State.rank, receiver, Party.weight_nil]
    omega
  | writeBlock index data plain =>
    simp only [step, guarded_eq_some] at hs
    obtain ⟨⟨g, hhead, -⟩, rfl⟩ := hs
    obtain ⟨rest, hrest⟩ := List.head?_eq_some_iff.mp hhead
    simp [State.rank, receiver, hrest]
  | verify =>
    simp only [step, guarded_eq_some] at hs
    obtain ⟨g, rfl⟩ := hs
    simp only [State.rank, receiver, g, Party.weight_nil]
    split <;> simp [Pc.rank]
  | sendComplete =>
    simp only [step, guarded_eq_some] at hs
    obtain ⟨g, rfl⟩ := hs
    have hw := (⟨tagComplete, s.receivedHash.getD (.text [])⟩ : Frame C).weight_le
    simp [State.rank, receiver, g, Pc.rank]
    omega
  | _ =>
    simp only [step, guarded_eq_some] at hs
    obtain ⟨g, rfl⟩ := hs
    simp_all [State.rank, receiver, Pc.rank, WriterPc.rank, Frame.weight, Frame.ofText] <;> omega

end Receiver

end P2PTransfer.Lan
