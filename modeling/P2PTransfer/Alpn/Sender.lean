import P2PTransfer.Lib.Duplex
import P2PTransfer.Network.Control
import P2PTransfer.Storage.OutputPath

/-!
# The QUIC sender

`send_file_to_peer`: the function itself, the blocking task that reads the file,
and the channel between them. The sender puts its request on the stream, waits
for the response, and then streams the file from the offset the response names.

## Main definitions

- `Item` — what travels on the bidirectional stream
- `SendError` — the errors of the function with their texts
- `Sender.State`, `Sender.Act`, `sender` — the function as a party of a link
-/

namespace P2PTransfer.Alpn

open Transition

/-- `STREAM_CHUNK_SIZE`. -/
def streamChunkSize : Nat := 4 * 1024 * 1024

def channelCapacity : Nat := 32

structure TransferResponse where
  accepted : Bool
  resumeOffset : Nat := 0
deriving DecidableEq, Repr

/-- A JSON message, a byte of the file, or the end of the stream. -/
inductive Item where
  | request (r : TransferRequest)
  | response (r : TransferResponse)
  | byte (b : UInt8)
  | fin
deriving DecidableEq

inductive SendError where
  | stat (detail : Text)
  | connectTimeout
  | connect (detail : Text)
  | openStream (detail : Text)
  | request (detail : Text)
  | responseTimeout
  | response (detail : Text)
  | rejected
  | cancelled
  | write (detail : Text)
  | finish (detail : Text)
  | reader (detail : Text)
deriving DecidableEq

def SendError.text : SendError → Text
  | .stat e => "Cannot stat file: ".toList ++ e
  | .connectTimeout => "Connection timed out".toList
  | .connect e => "Failed to connect to peer: ".toList ++ e
  | .openStream e => "Failed to open QUIC stream: ".toList ++ e
  | .request e => "Failed to send TransferRequest: ".toList ++ e
  | .responseTimeout => "Receiver did not respond within 90 seconds".toList
  | .response e => "Failed to read TransferResponse: ".toList ++ e
  | .rejected => "REJECTED".toList
  | .cancelled => "Transfer cancelled by user".toList
  | .write e => "Network write error: ".toList ++ e
  | .finish e => "Failed to finish QUIC stream: ".toList ++ e
  | .reader e => e

namespace Sender

inductive Pc where
  | connect
  | activate
  | register
  | writeRequest
  | awaitResponse
  | getFlag
  | checkFlag
  | dequeue
  | write
  | finish
  | join
  | clearFlag
  | clearActive
  | cancelActive
  | cancelFlag
  | returned
deriving DecidableEq, Repr

/-- The blocking task. In `send` it holds a chunk that the channel has not taken. -/
inductive ReaderPc where
  | idle
  | hashPrefix
  | read
  | send
  | done
  | failed (detail : Text)
  | stopped
deriving DecidableEq

def ReaderPc.ended : ReaderPc → Bool
  | .done | .failed _ => true
  | _ => false

structure State (C : Primitives) where
  pc : Pc := .connect
  control : Control := {}
  reader : ReaderPc := .idle
  startOffset : Nat := 0
  processed : Nat := 0
  position : Nat := 0
  hashed : Bytes := []
  held : Bytes := []
  channel : List Bytes := []
  flag : Option Nat := none
  chunk : Bytes := []
  dequeued : Nat := 0
  sent : Nat := 0
  opened : Bool := false
  finished : Bool := false
  result : Option (Except SendError C.Digest) := none

inductive Act where
  | connect
  | activate
  | register
  | writeRequest
  | accepted (resumeOffset : Nat)
  | rejected (resumeOffset : Nat)
  | getFlag
  | proceed
  | seeCancel
  | dequeue (chunk : Bytes)
  | endOfData
  | writePart (n : Nat)
  | writeRest
  | finish
  | join
  | joinError (detail : Text)
  | clearFlag
  | clearActive
  | cancelActive
  | cancelFlag
  | hashPrefix (data : Bytes)
  | seek
  | read (data : Bytes)
  | endOfFile
  | sendChunk
  | sendFailed
  | readError (detail : Text)
  | fail (e : SendError)
  | dropStream
  | command (c : Command)
deriving DecidableEq

/-- Where an error of the environment can strike. -/
def strikes : SendError → Pc → Bool
  | .stat _, .connect | .connectTimeout, .connect | .connect _, .connect
  | .openStream _, .connect | .request _, .writeRequest | .responseTimeout, .awaitResponse
  | .response _, .awaitResponse | .write _, .write | .finish _, .finish => true
  | _, _ => false

variable {C : Primitives}

/-- The three places of the loop that poll the held flag. -/
def Pc.polls : Pc → Bool
  | .checkFlag | .dequeue | .write => true
  | _ => false

def State.seesCancel (s : State C) : Bool := s.control.cancelled s.flag

/-- One step. The selects of the loop are biased: while the held flag is cancelled,
no other branch is taken. -/
def step (disk : Disk) (s : State C) : Act → Option (State C)
  | .connect => guarded (s.pc = .connect) { s with pc := .activate, opened := true }
  | .activate => guarded (s.pc = .activate)
      { s with pc := .register, control := s.control.activate }
  | .register => guarded (s.pc = .register)
      { s with pc := .writeRequest, control := s.control.register }
  | .writeRequest => guarded (s.pc = .writeRequest) { s with pc := .awaitResponse }
  | .accepted resumeOffset => guarded (s.pc = .awaitResponse)
      { s with pc := .getFlag, startOffset := resumeOffset, position := resumeOffset,
               reader := .hashPrefix }
  | .rejected _ => guarded (s.pc = .awaitResponse)
      { s with pc := .returned, result := some (.error .rejected) }
  -- the flag of an iteration is what the map holds at its start
  | .getFlag => guarded (s.pc = .getFlag)
      { s with pc := .checkFlag, flag := s.control.registered }
  | .proceed => guarded (s.pc = .checkFlag ∧ ¬ s.seesCancel ∧ ¬ s.control.paused s.flag)
      { s with pc := .dequeue }
  | .seeCancel => guarded (s.pc.polls ∧ s.seesCancel) { s with pc := .cancelActive }
  | .dequeue chunk => guarded (s.pc = .dequeue ∧ ¬ s.seesCancel ∧ s.channel.head? = some chunk)
      { s with pc := .write, chunk := chunk, channel := s.channel.tail,
               dequeued := s.dequeued + 1 }
  -- a reader that failed closes the channel like one that reached the end of the file
  | .endOfData => guarded (s.pc = .dequeue ∧ ¬ s.seesCancel ∧ s.channel = [] ∧ s.reader.ended)
      { s with pc := .finish }
  | .writePart n => guarded (s.pc = .write ∧ ¬ s.seesCancel ∧ 0 < n ∧ n < s.chunk.length)
      { s with chunk := s.chunk.drop n, sent := s.sent + n }
  | .writeRest => guarded (s.pc = .write ∧ ¬ s.seesCancel)
      { s with pc := .getFlag, chunk := [], sent := s.sent + s.chunk.length }
  | .finish => guarded (s.pc = .finish) { s with pc := .join, finished := true }
  | .join => guarded (s.pc = .join ∧ s.reader = .done)
      { s with pc := .clearFlag, result := some (.ok (C.blake3 s.hashed)) }
  | .joinError detail => guarded (s.pc = .join ∧ s.reader = .failed detail)
      { s with pc := .returned, result := some (.error (.reader detail)) }
  | .clearFlag => guarded (s.pc = .clearFlag)
      { s with pc := .clearActive, control := s.control.unregister }
  | .clearActive => guarded (s.pc = .clearActive)
      { s with pc := .returned, control := s.control.deactivate }
  | .cancelActive => guarded (s.pc = .cancelActive)
      { s with pc := .cancelFlag, control := s.control.deactivate }
  | .cancelFlag => guarded (s.pc = .cancelFlag)
      { s with pc := .returned, control := s.control.unregister,
               result := some (.error .cancelled) }
  -- the reader hashes the prefix that the receiver has, seeks, and streams the rest
  | .hashPrefix data => guarded (s.reader = .hashPrefix ∧ data ≠ [] ∧ disk s.processed data ∧
        s.processed + data.length ≤ s.startOffset ∧ data.length ≤ streamChunkSize)
      { s with processed := s.processed + data.length, hashed := s.hashed ++ data }
  | .seek => guarded (s.reader = .hashPrefix ∧
        (s.processed = s.startOffset ∨ disk s.processed []))
      { s with reader := .read }
  | .read data => guarded (s.reader = .read ∧ data ≠ [] ∧ disk s.position data ∧
        data.length ≤ streamChunkSize)
      { s with reader := .send, held := data, position := s.position + data.length,
               hashed := s.hashed ++ data }
  | .endOfFile => guarded (s.reader = .read ∧ disk s.position []) { s with reader := .done }
  | .sendChunk => guarded (s.reader = .send ∧ s.pc ≠ .returned ∧
        s.channel.length < channelCapacity)
      { s with reader := .read, held := [], channel := s.channel ++ [s.held] }
  | .sendFailed => guarded (s.reader = .send ∧ s.pc = .returned)
      { s with reader := .stopped }
  | .readError detail => guarded (s.reader = .hashPrefix ∨ s.reader = .read)
      { s with reader := .failed detail }
  | .fail e => guarded (strikes e s.pc ∧ (s.pc = .write → ¬ s.seesCancel))
      { s with pc := .returned, result := some (.error e),
               control := if s.pc = .writeRequest then s.control.deactivate else s.control }
  -- a stream that is dropped unfinished is finished by its destructor
  | .dropStream => guarded (s.pc = .returned ∧ s.opened ∧ ¬ s.finished)
      { s with finished := true }
  | .command c => (s.control.command c).map fun control => { s with control := control }

def recvs : Act → List Item
  | .accepted resumeOffset => [.response ⟨true, resumeOffset⟩]
  | .rejected resumeOffset => [.response ⟨false, resumeOffset⟩]
  | _ => []

def sends (request : TransferRequest) (s : State C) : Act → List Item
  | .writeRequest => [.request request]
  | .writePart n => (s.chunk.take n).map .byte
  | .writeRest => s.chunk.map .byte
  | .finish | .dropStream => [.fin]
  | _ => []

end Sender

/-- `send_file_to_peer` for a request, reading from a disk. -/
def sender (C : Primitives) (request : TransferRequest) (disk : Disk) :
    Party (Sender.State C) Sender.Act Item where
  step := Sender.step disk
  recvs := Sender.recvs
  sends := Sender.sends request

namespace Sender

variable {C : Primitives}

theorem Pc.polls_iff {pc : Pc} : pc.polls ↔ pc = .checkFlag ∨ pc = .dequeue ∨ pc = .write := by
  cases pc <;> simp [Pc.polls]

/-- Before the response. -/
def Pc.early : Pc → Bool
  | .connect | .activate | .register | .writeRequest | .awaitResponse => true
  | _ => false

/-- The data loop has ended by itself. -/
def Pc.tail : Pc → Bool
  | .finish | .join | .clearFlag | .clearActive => true
  | _ => false

/-- What a sender puts on the stream. -/
def put (request : TransferRequest) (asked : Bool) (data : Bytes) (ended : Bool) : List Item :=
  (if asked then [.request request] else []) ++ data.map .byte ++ if ended then [.fin] else []

theorem put_append_data (request : TransferRequest) (asked : Bool) (data more : Bytes) :
    put request asked data false ++ more.map .byte = put request asked (data ++ more) false := by
  simp [put]

theorem put_append_fin (request : TransferRequest) (asked : Bool) (data : Bytes) :
    put request asked data false ++ [.fin] = put request asked data true := by
  simp [put]

/-- The bytes between the disk and the stream. -/
def State.transit (s : State C) : Bytes := s.chunk ++ s.channel.flatten ++ s.held

/-- What the sender has taken from and put on the stream, and where the bytes are
that it has read. -/
structure Streams (request : TransferRequest) (disk : Disk) (data : Bytes) (asked : Bool)
    (i o : List Item) (s : State C) : Prop where
  out : o = put request asked data s.finished
  sent : data.length = s.sent
  unasked : s.pc = .connect ∨ s.pc = .activate ∨ s.pc = .register ∨ s.pc = .writeRequest →
    asked = false
  early : s.pc.early → i = [] ∧ s.reader = .idle ∧ data = [] ∧ s.transit = [] ∧
    s.finished = false
  accepted : s.reader ≠ .idle → i = [.response ⟨true, s.startOffset⟩]
  content : ∀ source, disk = Disk.ofFile source →
    data ++ s.transit ++ source.drop s.position = source.drop s.startOffset
  exhausted : ∀ source, disk = Disk.ofFile source → s.reader = .done → source.length ≤ s.position
  waiting : s.reader = .idle ∨ s.reader = .hashPrefix ∨ s.reader = .read ∨ s.reader = .done →
    s.held = []
  chunk : s.pc = .getFlag ∨ s.pc = .checkFlag ∨ s.pc = .dequeue ∨ s.pc = .finish → s.chunk = []
  finished : s.finished → s.pc = .returned ∨ (s.pc.tail ∧ s.pc ≠ .finish)

theorem Streams.start (request : TransferRequest) (disk : Disk) :
    Streams request disk [] false [] [] ({} : State C) := by
  constructor <;> simp [put, State.transit]

theorem Streams.step {request : TransferRequest} {disk : Disk} {data : Bytes} {asked : Bool}
    {i o : List Item} {s t : State C} {a : Act} (h : Streams request disk data asked i o s)
    (hs : Sender.step disk s a = some t) : ∃ data' asked',
      Streams request disk data' asked' (i ++ recvs a) (o ++ sends request s a) t := by
  obtain ⟨h1, h2, h3, h4, h5, h6, h7, h8, h9, h10⟩ := h
  have hopen : s.pc.polls ∨ s.pc = .finish → s.finished = false := by
    grind -ring -linarith [Pc.tail, Pc.polls_iff]
  cases a with
  | command c =>
    obtain ⟨control, hc, rfl⟩ := Option.map_eq_some_iff.mp hs
    simp only [recvs, sends, List.append_nil]
    exact ⟨data, asked, h1, h2, h3, h4, h5, h6, h7, h8, h9, h10⟩
  | writeRequest =>
    simp only [Sender.step, guarded_eq_some] at hs
    obtain ⟨g, rfl⟩ := hs
    obtain ⟨hi, hr, rfl, ht, hf⟩ := h4 (by simp [g, Pc.early])
    refine ⟨[], true, ?_, h2, by simp, ?_, ?_, h6, h7, h8, by simp, by simp [hf]⟩
    · simp [h1, h3 (by simp [g]), put, sends, hf]
    · exact fun _ => ⟨by simp [hi, recvs], hr, rfl, ht, hf⟩
    · exact fun hn => absurd hr hn
  | accepted k =>
    simp only [Sender.step, guarded_eq_some] at hs
    obtain ⟨g, rfl⟩ := hs
    obtain ⟨hi, hr, rfl, ht, hf⟩ := h4 (by simp [g, Pc.early])
    obtain ⟨⟨hc, hch⟩, hh⟩ : (s.chunk = [] ∧ s.channel.flatten = []) ∧ s.held = [] := by
      simpa [State.transit, and_assoc] using ht
    refine ⟨[], asked, by simpa [sends] using h1, h2, by simp, by simp [Pc.early], ?_, ?_,
      by simp, fun _ => hh, fun _ => hc, by simp [hf]⟩
    · simp [hi, recvs]
    · intro source _
      simp [State.transit, hc, hch, hh]
  | writePart n =>
    simp only [Sender.step, guarded_eq_some] at hs
    obtain ⟨⟨g, -, -, hn⟩, rfl⟩ := hs
    have hf := hopen (.inl (by simp [g, Pc.polls]))
    refine ⟨data ++ s.chunk.take n, asked, ?_, ?_, h3, by simp [g, Pc.early],
      by simpa [recvs] using h5, ?_, h7, h8, by simp [g], h10⟩
    · rw [h1, hf]
      have hput := put_append_data request asked data (s.chunk.take n)
      exact hput
    · show (data ++ s.chunk.take n).length = s.sent + n
      rw [List.length_append, List.length_take, h2]
      omega
    · intro source hd
      rw [← h6 source hd]
      conv_rhs => rw [State.transit, ← List.take_append_drop n s.chunk]
      simp only [State.transit, List.append_assoc]
  | writeRest =>
    simp only [Sender.step, guarded_eq_some] at hs
    obtain ⟨⟨g, -⟩, rfl⟩ := hs
    have hf := hopen (.inl (by simp [g, Pc.polls]))
    refine ⟨data ++ s.chunk, asked, ?_, ?_, by simp, by simp [Pc.early],
      by simpa [recvs] using h5, ?_, h7, h8, by simp, by simp [hf]⟩
    · rw [h1, hf]
      exact put_append_data request asked data s.chunk
    · show (data ++ s.chunk).length = s.sent + s.chunk.length
      rw [List.length_append, h2]
    · intro source hd
      rw [← h6 source hd]
      simp [State.transit]
  | finish =>
    simp only [Sender.step, guarded_eq_some] at hs
    obtain ⟨g, rfl⟩ := hs
    refine ⟨data, asked, ?_, h2, by simp, by simp [Pc.early], by simpa [recvs] using h5, h6, h7,
      h8, by simp, by simp [Pc.tail]⟩
    rw [h1, hopen (.inr g)]
    exact put_append_fin request asked data
  | dropStream =>
    simp only [Sender.step, guarded_eq_some, Bool.not_eq_true] at hs
    obtain ⟨⟨g, -, hf⟩, rfl⟩ := hs
    refine ⟨data, asked, ?_, h2, h3, by simp [g, Pc.early], by simpa [recvs] using h5, h6, h7,
      h8, h9, by simp [g]⟩
    rw [h1, hf]
    exact put_append_fin request asked data
  | dequeue chunk =>
    simp only [Sender.step, guarded_eq_some] at hs
    obtain ⟨⟨g, -, hhead⟩, rfl⟩ := hs
    obtain ⟨rest, hrest⟩ := List.head?_eq_some_iff.mp hhead
    refine ⟨data, asked, by simpa [sends] using h1, h2, by simp, by simp [Pc.early],
      by simpa [recvs] using h5, ?_, h7, h8, by simp, fun hf => by simpa [g, Pc.tail] using h10 hf⟩
    intro source hd
    rw [← h6 source hd]
    simp [State.transit, h9 (by simp [g]), hrest]
  | read chunk =>
    simp only [Sender.step, guarded_eq_some] at hs
    obtain ⟨⟨g, -, hdisk, -⟩, rfl⟩ := hs
    have hlate : s.pc.early = false := by
      by_contra he
      simpa [g] using (h4 (by simpa using he)).2.1
    refine ⟨data, asked, by simpa [sends] using h1, h2, h3, by simp [hlate],
      fun _ => by simpa [recvs] using h5 (by simp [g]), ?_, by simp, by simp, h9, h10⟩
    intro source hd
    subst hd
    rw [← h6 source rfl, Disk.ofFile_take hdisk]
    simp [State.transit, h8 (by simp [g])]
  | sendChunk =>
    simp only [Sender.step, guarded_eq_some] at hs
    obtain ⟨⟨g, -, -⟩, rfl⟩ := hs
    have hlate : s.pc.early = false := by
      by_contra he
      simpa [g] using (h4 (by simpa using he)).2.1
    refine ⟨data, asked, by simpa [sends] using h1, h2, h3, by simp [hlate],
      fun _ => by simpa [recvs] using h5 (by simp [g]), ?_, by simp, by simp, h9, h10⟩
    intro source hd
    rw [← h6 source hd]
    simp [State.transit]
  | endOfFile =>
    simp only [Sender.step, guarded_eq_some] at hs
    obtain ⟨⟨g, hdisk⟩, rfl⟩ := hs
    have hlate : s.pc.early = false := by
      by_contra he
      simpa [g] using (h4 (by simpa using he)).2.1
    refine ⟨data, asked, by simpa [sends] using h1, h2, h3, by simp [hlate],
      fun _ => by simpa [recvs] using h5 (by simp [g]), h6, ?_, fun _ => h8 (by simp [g]), h9, h10⟩
    intro source hd _
    subst hd
    exact (Disk.ofFile_iff.mp hdisk).2 rfl
  | _ =>
    simp only [Sender.step, recvs, sends, List.append_nil, guarded_eq_some] at hs ⊢
    obtain ⟨g, rfl⟩ := hs
    refine ⟨data, asked, h1, h2, ?_, ?_, ?_, h6, ?_, ?_, ?_, ?_⟩ <;> first
      | assumption
      | grind -ring -linarith [Pc.early, Pc.tail, Pc.polls_iff, strikes, State.transit]

theorem ReaderPc.ended_iff {r : ReaderPc} : r.ended ↔ r = .done ∨ ∃ e, r = .failed e := by
  cases r <;> simp [ReaderPc.ended]

/-- The reader does not fail, and a stream that an early return drops is not ended. -/
def Act.sound : Act → Bool
  | .readError _ | .dropStream => false
  | _ => true

/-- A sender whose reader does not fail ends the stream where the source ends. -/
structure Drains (m : Nat) (s : State C) : Prop where
  reading : ∀ e, s.reader ≠ .failed e
  place : s.startOffset + (s.sent + s.transit.length) = s.position
  bound : s.startOffset ≤ s.position ∧ s.position ≤ max s.startOffset m
  exhausted : s.reader = .done → m ≤ s.position
  drained : s.pc.tail ∨ s.finished → s.reader = .done ∧ s.chunk = [] ∧ s.channel = []

theorem Drains.start (m : Nat) : Drains m ({} : State C) := by
  constructor <;> simp [State.transit, Pc.tail]

theorem Drains.step {request : TransferRequest} {disk : Disk} {data : Bytes} {asked : Bool}
    {i o : List Item} {s t : State C} {a : Act} {m : Nat} (h : Drains m s) (hdisk : disk.EndsAt m)
    (hst : Streams request disk data asked i o s) (ha : a.sound)
    (hs : Sender.step disk s a = some t) : Drains m t := by
  have hend : s.reader.ended → s.reader = .done := fun he =>
    (ReaderPc.ended_iff.mp he).resolve_right fun ⟨e, hf⟩ => h.reading e hf
  have hchunk := hst.chunk
  obtain ⟨h1, h2, h3, h4, h5⟩ := h
  cases a with
  | command c =>
    obtain ⟨control, -, rfl⟩ := Option.map_eq_some_iff.mp hs
    exact ⟨h1, h2, h3, h4, h5⟩
  | readError => cases ha
  | dropStream => cases ha
  | accepted k =>
    simp only [Sender.step, guarded_eq_some] at hs
    obtain ⟨g, rfl⟩ := hs
    obtain ⟨-, -, rfl, htransit, hfin⟩ := hst.early (by simp [g, Pc.early])
    have hsent : s.sent = 0 := hst.sent.symm
    refine ⟨by simp, ?_, by simp, by simp, by simp [Pc.tail, hfin]⟩
    show k + (s.sent + s.transit.length) = k
    rw [hsent, htransit]
    rfl
  | dequeue chunk =>
    simp only [Sender.step, guarded_eq_some] at hs
    obtain ⟨⟨g, -, hhead⟩, rfl⟩ := hs
    obtain ⟨rest, hrest⟩ := List.head?_eq_some_iff.mp hhead
    refine ⟨h1, ?_, h3, h4, fun hd => ?_⟩
    · rw [← h2]
      simp [State.transit, hchunk (by simp [g]), hrest]
    · have hempty := (h5 (.inr (hd.resolve_left (by simp [Pc.tail])))).2.2
      simp [hrest] at hempty
  | writePart n =>
    simp only [Sender.step, guarded_eq_some] at hs
    obtain ⟨⟨g, -, hpos, hn⟩, rfl⟩ := hs
    refine ⟨h1, ?_, h3, h4, fun hd => ?_⟩
    · rw [← h2]
      simp only [State.transit, List.length_append, List.length_drop]
      omega
    · have hempty := (h5 (.inr (hd.resolve_left (by simp [g, Pc.tail])))).2.1
      simp [hempty] at hn
  | writeRest =>
    simp only [Sender.step, guarded_eq_some] at hs
    obtain ⟨⟨g, -⟩, rfl⟩ := hs
    refine ⟨h1, ?_, h3, h4, fun hd => ?_⟩
    · rw [← h2]
      simp only [State.transit, List.length_append, List.length_nil]
      omega
    · obtain ⟨hdone, -, hempty⟩ := h5 (.inr (hd.resolve_left (by simp [Pc.tail])))
      exact ⟨hdone, rfl, hempty⟩
  | read chunk =>
    simp only [Sender.step, guarded_eq_some] at hs
    obtain ⟨⟨g, -, hread, -⟩, rfl⟩ := hs
    have hheld : s.held = [] := hst.waiting (by simp [g])
    have hbelow := (hdisk _ _ hread).1
    refine ⟨by simp, ?_, ?_, by simp, fun hd => ?_⟩
    · show s.startOffset + (s.sent + (s.chunk ++ s.channel.flatten ++ chunk).length) =
        s.position + chunk.length
      rw [← h2]
      simp only [State.transit, hheld, List.length_append, List.length_nil]
      omega
    · show s.startOffset ≤ s.position + chunk.length ∧
        s.position + chunk.length ≤ max s.startOffset m
      omega
    · have hdone := (h5 hd).1
      simp [g] at hdone
  | sendChunk =>
    simp only [Sender.step, guarded_eq_some] at hs
    obtain ⟨⟨g, -, -⟩, rfl⟩ := hs
    refine ⟨by simp, ?_, h3, by simp, fun hd => ?_⟩
    · rw [← h2]
      simp [State.transit]
    · have hdone := (h5 hd).1
      simp [g] at hdone
  | endOfFile =>
    simp only [Sender.step, guarded_eq_some] at hs
    obtain ⟨⟨g, hread⟩, rfl⟩ := hs
    refine ⟨by simp, h2, h3, fun _ => (hdisk _ _ hread).2 rfl, fun hd => ?_⟩
    have hdone := (h5 hd).1
    simp [g] at hdone
  | _ =>
    simp only [Sender.step, guarded_eq_some] at hs
    obtain ⟨g, rfl⟩ := hs
    refine ⟨?_, h2, h3, ?_, ?_⟩ <;> first
      | assumption
      | grind -ring -linarith [Pc.tail]

/-- What is on a stream that such a sender has ended. -/
theorem Drains.startOffset_add_sent {request : TransferRequest} {disk : Disk} {data : Bytes}
    {asked : Bool} {i o : List Item} {s : State C} {m : Nat} (h : Drains m s)
    (hst : Streams request disk data asked i o s) (hf : s.finished) :
    s.startOffset + s.sent = max s.startOffset m := by
  obtain ⟨hdone, hchunk, hchannel⟩ := h.drained (.inr hf)
  have hplace := h.place
  have hbelow := h.exhausted hdone
  obtain ⟨hge, hle⟩ := h.bound
  rw [State.transit, hchunk, hchannel, hst.waiting (by simp [hdone])] at hplace
  simp only [List.flatten_nil, List.append_nil, List.length_nil, Nat.add_zero] at hplace
  omega

/-- The actions of an environment without faults and cancellation. -/
def Act.benign : Act → Bool
  | .readError _ | .fail _ => false
  | .command c => !c.cancels
  | _ => true

/-- A sender that nothing disturbs leaves its loop with everything on the stream. -/
structure Undisturbed (i : List Item) (s : State C) : Prop where
  clean : s.control.Clean
  uncancelled : s.pc ≠ .cancelActive ∧ s.pc ≠ .cancelFlag
  reading : ∀ e, s.reader ≠ .failed e
  drained : s.pc.tail ∨ (s.pc = .returned ∧ s.reader ≠ .idle) →
    s.reader = .done ∧ s.chunk = [] ∧ s.channel = []
  refused : s.pc = .returned → s.reader = .idle → ∃ k, i = [.response ⟨false, k⟩]

theorem Undisturbed.start : Undisturbed [] ({} : State C) := by
  constructor <;> simp [Control.Clean, Pc.tail]

theorem Undisturbed.step {request : TransferRequest} {disk : Disk} {data : Bytes} {asked : Bool}
    {i o : List Item} {s t : State C} {a : Act} (h : Undisturbed i s)
    (hst : Streams request disk data asked i o s) (ha : a.benign)
    (hs : Sender.step disk s a = some t) : Undisturbed (i ++ recvs a) t := by
  have hcan : s.seesCancel = false := h.clean.cancelled _
  have hend : s.reader.ended → s.reader = .done := fun he =>
    (ReaderPc.ended_iff.mp he).resolve_right fun ⟨e, hf⟩ => h.reading e hf
  have hchunk := hst.chunk
  have hearly : s.pc.early → i = [] ∧ s.reader = .idle := fun hp =>
    ⟨(hst.early hp).1, (hst.early hp).2.1⟩
  have hnot : s.pc.tail → s.reader ≠ .idle := fun hp => by simp [(h.drained (.inl hp)).1]
  obtain ⟨h1, h2, h3, h4, h5⟩ := h
  cases a with
  | command c =>
    obtain ⟨control, hc, rfl⟩ := Option.map_eq_some_iff.mp hs
    simp only [recvs, List.append_nil]
    exact ⟨h1.command (by simpa [Act.benign] using ha) hc, h2, h3, h4, h5⟩
  | readError => cases ha
  | fail => cases ha
  | register =>
    simp only [Sender.step, guarded_eq_some] at hs
    obtain ⟨g, rfl⟩ := hs
    exact ⟨h1.register, by simp, h3, by simp [Pc.tail], by simp⟩
  | rejected k =>
    simp only [Sender.step, guarded_eq_some] at hs
    obtain ⟨g, rfl⟩ := hs
    obtain ⟨rfl, hr⟩ := hearly (by simp [g, Pc.early])
    exact ⟨h1, by simp, h3, by simp [Pc.tail, hr], fun _ _ => ⟨k, rfl⟩⟩
  | accepted k =>
    simp only [Sender.step, guarded_eq_some] at hs
    obtain ⟨g, rfl⟩ := hs
    exact ⟨h1, by simp, by simp, by simp [Pc.tail], by simp⟩
  | _ =>
    simp only [Sender.step, recvs, List.append_nil, guarded_eq_some] at hs ⊢
    obtain ⟨g, rfl⟩ := hs
    refine ⟨h1, ?_, ?_, ?_, ?_⟩ <;> first
      | assumption
      | grind -ring -linarith [Pc.tail]

/-- The file from the offset on is on a stream that ended. -/
theorem Undisturbed.data_eq {request : TransferRequest} {source data : Bytes} {asked : Bool}
    {i o : List Item} {s : State C} (h : Undisturbed i s)
    (hst : Streams request (Disk.ofFile source) data asked i o s) (hf : s.finished)
    (hr : s.reader ≠ .idle) : data = source.drop s.startOffset := by
  obtain ⟨hdone, hc, hch⟩ := h.drained (by
    rcases hst.finished hf with hp | ⟨hp, _⟩
    · exact .inr ⟨hp, hr⟩
    · exact .inl hp)
  have hh : s.held = [] := hst.waiting (by simp [hdone])
  have hall := hst.content source rfl
  have hlen := hst.exhausted source rfl hdone
  rwa [State.transit, hc, hch, hh, List.drop_eq_nil_of_le hlen, List.flatten_nil, List.append_nil,
    List.append_nil, List.append_nil, List.append_nil] at hall

end Sender

end P2PTransfer.Alpn
