import P2PTransfer.Alpn.Sender

/-!
# The QUIC receiver

`handle_incoming_connection`: the function itself, the blocking task that writes
the file, and the channel between them. The end of the file is the end of the
stream; nothing on this path is compared with the announced size.

## Main definitions

- `TransferEvent` — the final events of the function
- `Receiver.State`, `Receiver.Act`, `receiver` — the function as a party of a link
-/

namespace P2PTransfer.Alpn

open Transition

/-- A text occurs in another. -/
def contains (text part : Text) : Bool := decide (part <:+: text)

inductive TransferEvent (C : Primitives) where
  | complete (filePath : Path) (blake3Hash : C.Digest)
  | cancelled
  | error (message : Text)
deriving DecidableEq

inductive RecvError where
  | request (detail : Text)
  | createDir (detail : Text)
  | respond (detail : Text)
  | cancelled
  | network (detail : Text)
  | writerDied
  | disk (detail : Text)
  | diskWrite (detail : Text)
deriving DecidableEq

def RecvError.text : RecvError → Text
  | .request e => e
  | .createDir e => e
  | .respond e => e
  | .cancelled => "Transfer cancelled by user".toList
  | .network e => e
  | .writerDied => "Writer task died".toList
  | .disk e => e
  | .diskWrite e => "Disk write failed: ".toList ++ e

/-- The classification of an error of the receive loop by its text. -/
def RecvError.event (C : Primitives) (e : RecvError) : TransferEvent C :=
  if contains e.text "cancelled".toList || contains e.text "Cancelled".toList then .cancelled
  else .error ("Network error during receive: ".toList ++ e.text)

/-- The existing length, rounded down to a whole number of blocks. -/
def resumeOffset (fs : Files) (outputDir : Text) (request : TransferRequest) : Nat :=
  if isResume fs outputDir request then
    fs.len (outputPath outputDir request.fileName) / streamChunkSize * streamChunkSize
  else 0

theorem RecvError.event_ne_complete {C : Primitives} (e : RecvError) (p : Path) (d : C.Digest) :
    e.event C ≠ .complete p d := by
  unfold event
  split <;> simp

namespace Receiver

inductive Pc where
  | readRequest
  | activate
  | register
  | awaitAnswer
  | rejectActive
  | rejectFlag
  | rejectRespond
  | prepare
  | respond
  | getFlag
  | checkFlag
  | read
  | forward
  | close
  | join
  | clearFlag
  | settle
  | clearActive
  | returned
deriving DecidableEq, Repr

/-- The blocking task. -/
inductive WriterPc where
  | idle
  | hashPrefix
  | createFile
  | write
  | done
  | failed (e : RecvError)
deriving DecidableEq

def WriterPc.ended : WriterPc → Bool
  | .done | .failed _ => true
  | _ => false

/-- `recv_result`, once the loop has ended. -/
inductive LoopResult where
  | running
  | ended
  | failed (e : RecvError)
deriving DecidableEq

structure State (C : Primitives) where
  files : Files
  pc : Pc := .readRequest
  control : Control := {}
  request : TransferRequest := ⟨[], [], 0, false⟩
  resuming : Bool := false
  path : Path := ⟨false, []⟩
  resumeOffset : Nat := 0
  writer : WriterPc := .idle
  hashed : Bytes := []
  buffer : Bytes := []
  channel : List Bytes := []
  closed : Bool := false
  flag : Option Nat := none
  held : Bytes := []
  chunks : Nat := 0
  bytesReceived : Nat := 0
  recvResult : LoopResult := .running
  event : Option (TransferEvent C) := none
  result : Option (Except RecvError Unit) := none

inductive Act where
  | readRequest (r : TransferRequest)
  | activate
  | register
  | answer (accepted : Bool)
  | rejectActive
  | rejectFlag
  | rejectRespond
  | prepare
  | respond
  | getFlag
  | proceed
  | seeCancel
  | read (data : Bytes)
  | endOfStream
  | forward
  | writerGone
  | close
  | join
  | joinError (e : RecvError)
  | clearFlag
  | complete
  | settle (e : RecvError)
  | clearActive
  | hashPrefix (n : Nat)
  | openAppend
  | createFile
  | writeChunk (chunk : Bytes)
  | flush
  | requestError (detail : Text)
  | readError (detail : Text)
  | createDirError (detail : Text)
  | respondError (detail : Text)
  | diskError (detail : Text)
  | writeError (detail : Text)
  | command (c : Command)
deriving DecidableEq

/-- The actions of an environment without faults, rejection and cancellation. -/
def Act.benign : Act → Bool
  | .requestError _ | .readError _ | .createDirError _ | .respondError _ | .diskError _
  | .writeError _ => false
  | .answer accepted => accepted
  | .command c => !c.cancels
  | _ => true

variable {C : Primitives}

def State.seesCancel (s : State C) : Bool := s.control.cancelled s.flag

/-- The content of the output file. -/
def State.content (s : State C) : Bytes := (s.files s.path).getD []

def step (outputDir : Text) (s : State C) : Act → Option (State C)
  | .readRequest r => guarded (s.pc = .readRequest) { s with pc := .activate, request := r }
  | .requestError detail => guarded (s.pc = .readRequest)
      { s with pc := .returned, result := some (.error (.request detail)) }
  | .activate => guarded (s.pc = .activate)
      { s with pc := .register, control := s.control.activate }
  | .register => guarded (s.pc = .register)
      { s with pc := .awaitAnswer, control := s.control.register }
  | .answer accepted => guarded (s.pc = .awaitAnswer)
      { s with pc := if accepted then .prepare else .rejectActive }
  | .rejectActive => guarded (s.pc = .rejectActive)
      { s with pc := .rejectFlag, control := s.control.deactivate }
  | .rejectFlag => guarded (s.pc = .rejectFlag)
      { s with pc := .rejectRespond, control := s.control.unregister }
  | .rejectRespond => guarded (s.pc = .rejectRespond)
      { s with pc := .returned, result := some (.ok ()) }
  | .prepare => guarded (s.pc = .prepare)
      { s with pc := .respond, resuming := isResume s.files outputDir s.request,
               path := finalPath s.files outputDir s.request,
               resumeOffset := resumeOffset s.files outputDir s.request }
  | .createDirError detail => guarded (s.pc = .prepare)
      { s with pc := .returned, result := some (.error (.createDir detail)),
               event := some (.error ("Cannot create output directory: ".toList ++ detail)) }
  | .respond => guarded (s.pc = .respond)
      { s with pc := .getFlag, writer := if s.resuming then .hashPrefix else .createFile }
  | .respondError detail => guarded (s.pc = .respond)
      { s with pc := .returned, result := some (.error (.respond detail)) }
  -- the loop: the flag of each iteration is what the map holds at its start
  | .getFlag => guarded (s.pc = .getFlag)
      { s with pc := .checkFlag, flag := s.control.registered }
  | .proceed => guarded (s.pc = .checkFlag ∧ ¬ s.seesCancel ∧ ¬ s.control.paused s.flag)
      { s with pc := .read }
  | .seeCancel => guarded ((s.pc = .checkFlag ∨ s.pc = .read) ∧ s.seesCancel)
      { s with pc := .close, recvResult := .failed .cancelled }
  -- unlike the sender's, this select may take the data although the flag is cancelled
  | .read data => guarded (s.pc = .read ∧ data ≠ [])
      { s with pc := .forward, held := data, chunks := s.chunks + 1 }
  | .endOfStream => guarded (s.pc = .read)
      { s with pc := .close, recvResult := .ended }
  | .readError detail => guarded (s.pc = .read)
      { s with pc := .close, recvResult := .failed (.network detail) }
  | .forward => guarded (s.pc = .forward ∧ ¬ s.writer.ended ∧
        s.channel.length < channelCapacity)
      { s with pc := .getFlag, channel := s.channel ++ [s.held], held := [],
               bytesReceived := s.bytesReceived + s.held.length }
  | .writerGone => guarded (s.pc = .forward ∧ s.writer.ended)
      { s with pc := .close, recvResult := .failed .writerDied }
  | .close => guarded (s.pc = .close) { s with pc := .join, closed := true }
  | .join => guarded (s.pc = .join ∧ s.writer = .done) { s with pc := .clearFlag }
  | .joinError e => guarded (s.pc = .join ∧ s.writer = .failed e)
      { s with pc := .returned, result := some (.error e) }
  | .clearFlag => guarded (s.pc = .clearFlag)
      { s with pc := .settle, control := s.control.unregister }
  | .complete => guarded (s.pc = .settle ∧ s.recvResult = .ended)
      { s with pc := .clearActive, result := some (.ok ()),
               event := some (.complete s.path (C.blake3 s.hashed)) }
  | .settle e => guarded (s.pc = .settle ∧ s.recvResult = .failed e)
      { s with pc := .clearActive, result := some (.error e),
               files := s.files.set s.path none, event := some (e.event C) }
  | .clearActive => guarded (s.pc = .clearActive)
      { s with pc := .returned, control := s.control.deactivate }
  -- the writer task hashes what it believes the receiver keeps, then appends
  | .hashPrefix n => guarded (s.writer = .hashPrefix ∧ s.hashed.length < s.resumeOffset ∧
        n ≤ min (1024 * 1024) (s.resumeOffset - s.hashed.length) ∧
        s.hashed.length + n ≤ s.content.length ∧ 0 < n)
      { s with hashed := s.hashed ++ (s.content.drop s.hashed.length).take n }
  | .openAppend => guarded (s.writer = .hashPrefix ∧ s.resumeOffset ≤ s.hashed.length)
      { s with writer := .write }
  | .createFile => guarded (s.writer = .createFile)
      { s with writer := .write, files := s.files.set s.path (some []) }
  | .writeChunk chunk => guarded (s.writer = .write ∧ s.channel.head? = some chunk)
      (let written := BufWriter.writeAll streamChunkSize s.content s.buffer chunk
       { s with channel := s.channel.tail, hashed := s.hashed ++ chunk,
                files := s.files.set s.path (some written.1), buffer := written.2 })
  | .flush => guarded (s.writer = .write ∧ s.channel = [] ∧ s.closed)
      { s with writer := .done, buffer := [],
               files := s.files.set s.path (some (s.content ++ s.buffer)) }
  | .diskError detail => guarded (s.writer = .hashPrefix ∨ s.writer = .createFile ∨ s.writer = .write)
      { s with writer := .failed (.disk detail) }
  | .writeError detail => guarded (s.writer = .write ∧ s.channel ≠ [])
      { s with writer := .failed (.diskWrite detail),
               event := some (.error ("Disk write failed: ".toList ++ detail)) }
  | .command c => (s.control.command c).map fun control => { s with control := control }

def recvs : Act → List Item
  | .readRequest r => [.request r]
  | .read data => data.map .byte
  | .endOfStream => [.fin]
  | _ => []

def sends (s : State C) : Act → List Item
  | .rejectRespond => [.response ⟨false, 0⟩]
  | .respond => [.response ⟨true, s.resumeOffset⟩]
  | _ => []

end Receiver

/-- `handle_incoming_connection` with its configured output directory. -/
def receiver (C : Primitives) (outputDir : Text) :
    Party (Receiver.State C) Receiver.Act Item where
  step := Receiver.step outputDir
  recvs := Receiver.recvs
  sends := Receiver.sends

namespace Receiver

variable {C : Primitives}

/-- From the response to the return. -/
def Pc.streaming : Pc → Bool
  | .getFlag | .checkFlag | .read | .forward | .close | .join | .clearFlag | .settle
  | .clearActive => true
  | _ => false

/-- Before the response. -/
def Pc.deciding : Pc → Bool
  | .readRequest | .activate | .register | .awaitAnswer | .rejectActive | .rejectFlag
  | .rejectRespond | .prepare | .respond => true
  | _ => false

/-- The loop has not ended. -/
def Pc.looping : Pc → Bool
  | .getFlag | .checkFlag | .read | .forward => true
  | _ => false

/-- What the output file holds before the transfer. -/
def State.base (fs : Files) (s : State C) : Bytes :=
  if s.resuming then (fs s.path).getD [] else []

/-- The bytes between the stream and the writer. -/
def State.transit (s : State C) : Bytes := s.channel.flatten ++ s.held

/-- The file bytes that an action takes from the stream. -/
def Act.payload : Act → Bytes
  | .read data => data
  | _ => []

def Act.asks : Act → Bool
  | .readRequest _ => true
  | _ => false

/-- What the receiver has taken from and put on the stream. -/
structure Takes (data : Bytes) (asked : Bool) (i o : List Item) (s : State C) : Prop where
  inp : i = Sender.put s.request asked data (s.recvResult = .ended)
  counted : data.length = s.bytesReceived + s.held.length
  unasked : s.pc = .readRequest → asked = false
  deciding : s.pc.deciding → data = [] ∧ s.held = [] ∧ s.recvResult = .running ∧ o = []
  streaming : s.pc.streaming ∨ s.recvResult = .ended →
    asked = true ∧ o = [.response ⟨true, s.resumeOffset⟩]
  hasAsked : s.pc.deciding → s.pc ≠ .readRequest → asked = true
  looping : s.pc.looping → s.recvResult = .running
  held : s.pc = .getFlag ∨ s.pc = .checkFlag ∨ s.pc = .read ∨ s.recvResult = .ended → s.held = []
  event : ∀ p d, s.event = some (.complete p d) → s.recvResult = .ended

theorem Takes.start (fs : Files) : Takes [] false [] [] ({ files := fs } : State C) := by
  constructor <;> simp [Sender.put, Pc.streaming]

theorem Takes.step {outputDir : Text} {data : Bytes} {asked : Bool} {i o : List Item}
    {s t : State C} {a : Act} (h : Takes data asked i o s)
    (hs : Receiver.step outputDir s a = some t) :
    Takes (data ++ a.payload) (asked || a.asks) (i ++ recvs a) (o ++ sends s a) t := by
  obtain ⟨h1, h2, h3, h4, h5, h6, h7, h8, h9⟩ := h
  cases a with
  | command c =>
    obtain ⟨control, hc, rfl⟩ := Option.map_eq_some_iff.mp hs
    simp only [recvs, sends, Act.payload, Act.asks, List.append_nil, Bool.or_false]
    exact ⟨h1, h2, h3, h4, h5, h6, h7, h8, h9⟩
  | readRequest r =>
    simp only [Receiver.step, guarded_eq_some] at hs
    obtain ⟨g, rfl⟩ := hs
    obtain ⟨rfl, hh, hr, rfl⟩ := h4 (by simp [g, Pc.deciding])
    refine ⟨?_, h2, by simp, ?_, ?_, by simp [Act.asks], by simp [Pc.looping], fun _ => hh, h9⟩
    · simp [h1, h3 g, Sender.put, recvs, hr, Act.asks, Act.payload]
    · simp [Act.payload, hh, hr, sends]
    · simp [Pc.streaming, hr]
  | rejectRespond =>
    simp only [Receiver.step, guarded_eq_some] at hs
    obtain ⟨g, rfl⟩ := hs
    obtain ⟨rfl, hh, hr, rfl⟩ := h4 (by simp [g, Pc.deciding])
    refine ⟨?_, h2, by simp, by simp [Pc.deciding], ?_, by simp [Pc.deciding],
      by simp [Pc.looping], fun _ => hh, h9⟩
    · simpa [recvs, Act.payload, Act.asks] using h1
    · simp [Pc.streaming, hr]
  | respond =>
    simp only [Receiver.step, guarded_eq_some] at hs
    obtain ⟨g, rfl⟩ := hs
    obtain ⟨rfl, hh, hr, rfl⟩ := h4 (by simp [g, Pc.deciding])
    refine ⟨?_, h2, by simp, by simp [Pc.deciding], ?_, by simp [Pc.deciding], fun _ => hr,
      fun _ => hh, h9⟩
    · simpa [recvs, Act.payload, Act.asks] using h1
    · exact fun _ => ⟨by simp [h6 (by simp [g, Pc.deciding]) (by simp [g])], rfl⟩
  | read more =>
    simp only [Receiver.step, guarded_eq_some] at hs
    obtain ⟨⟨g, hne⟩, rfl⟩ := hs
    have hrun : s.recvResult = .running := h7 (by simp [g, Pc.looping])
    have hheld : s.held = [] := h8 (by simp [g])
    refine ⟨?_, ?_, by simp, by simp [Pc.deciding], ?_, by simp [Pc.deciding], fun _ => hrun,
      by simp [hrun], h9⟩
    · rw [h1, hrun]
      simp [recvs, Act.payload, Act.asks, Sender.put]
    · show (data ++ more).length = s.bytesReceived + more.length
      rw [List.length_append, h2, hheld, List.length_nil, Nat.add_zero]
    · intro _
      simpa [Act.asks, sends] using h5 (.inl (by simp [g, Pc.streaming]))
  | forward =>
    simp only [Receiver.step, recvs, sends, Act.payload, Act.asks, List.append_nil, Bool.or_false,
      guarded_eq_some] at hs ⊢
    obtain ⟨⟨g, -⟩, rfl⟩ := hs
    exact ⟨h1, h2, by simp, by simp [Pc.deciding],
      fun _ => h5 (.inl (by simp [g, Pc.streaming])), by simp [Pc.deciding],
      fun _ => h7 (by simp [g, Pc.looping]), fun _ => rfl, h9⟩
  | endOfStream =>
    simp only [Receiver.step, guarded_eq_some] at hs
    obtain ⟨g, rfl⟩ := hs
    have hrun : s.recvResult = .running := h7 (by simp [g, Pc.looping])
    have hheld : s.held = [] := h8 (by simp [g])
    refine ⟨?_, by simpa [Act.payload] using h2, by simp, by simp [Pc.deciding], ?_,
      by simp [Pc.deciding], by simp [Pc.looping], fun _ => hheld, fun _ _ _ => rfl⟩
    · rw [h1, hrun]
      simp [recvs, Act.payload, Act.asks, Sender.put]
    · intro _
      simpa [Act.asks, sends] using h5 (.inl (by simp [g, Pc.streaming]))
  | _ =>
    simp only [Receiver.step, recvs, sends, Act.payload, Act.asks, List.append_nil, Bool.or_false,
      guarded_eq_some] at hs ⊢
    obtain ⟨g, rfl⟩ := hs
    refine ⟨?_, h2, ?_, ?_, ?_, ?_, ?_, ?_, ?_⟩ <;> first
      | assumption
      | grind -ring -linarith [Pc.deciding, Pc.streaming, Pc.looping, RecvError.event_ne_complete]

/-- How the function, its choice of a path and its writer go together. -/
structure Phases (outputDir : Text) (fs : Files) (s : State C) : Prop where
  deciding : s.pc.deciding → s.writer = .idle ∧ s.closed = false ∧ s.files = fs
  streaming : s.pc.streaming → s.writer ≠ .idle
  chosen : s.pc = .respond ∨ s.writer ≠ .idle → s.resuming = isResume fs outputDir s.request ∧
    s.path = finalPath fs outputDir s.request ∧
    s.resumeOffset = resumeOffset fs outputDir s.request
  running : s.pc.looping ∨ s.pc = .close → s.closed = false
  closed : s.writer = .done → s.closed
  settled : s.pc = .clearFlag ∨ s.pc = .settle ∨ s.pc = .clearActive → s.writer = .done

theorem Phases.start (outputDir : Text) (fs : Files) :
    Phases outputDir fs ({ files := fs } : State C) := by
  constructor <;> simp [Pc.looping, Pc.streaming]

theorem Phases.step {outputDir : Text} {fs : Files} {s t : State C} {a : Act}
    (h : Phases outputDir fs s) (hs : Receiver.step outputDir s a = some t) :
    Phases outputDir fs t := by
  obtain ⟨h1, h2, h3, h4, h5, h6⟩ := h
  cases a with
  | command c =>
    obtain ⟨control, hc, rfl⟩ := Option.map_eq_some_iff.mp hs
    exact ⟨h1, h2, h3, h4, h5, h6⟩
  | respond =>
    simp only [Receiver.step, guarded_eq_some] at hs
    obtain ⟨g, rfl⟩ := hs
    have hc := (h1 (by simp [g, Pc.deciding])).2.1
    refine ⟨by simp [Pc.deciding], fun _ => ?_, fun _ => h3 (.inl g), fun _ => hc, ?_, by simp⟩
    · cases s.resuming <;> simp
    · cases s.resuming <;> simp
  | _ =>
    simp only [Receiver.step, guarded_eq_some] at hs
    obtain ⟨g, rfl⟩ := hs
    refine ⟨?_, ?_, ?_, ?_, ?_, ?_⟩ <;> first
      | assumption
      | grind -ring -linarith [Pc.deciding, Pc.looping, Pc.streaming]

/-- Where the received bytes are, and what the hasher has seen. The prefix that is
hashed ends at the rounded offset, the file at its own length. -/
structure Stores (fs : Files) (data : Bytes) (s : State C) : Prop where
  idle : s.writer = .idle → s.buffer = [] ∧ s.hashed = [] ∧ s.transit = [] ∧ data = []
  hashing : s.writer = .hashPrefix → s.resuming ∧ s.files = fs ∧ s.buffer = [] ∧
    s.transit = data ∧ s.hashed = (s.base fs).take s.hashed.length ∧
    s.hashed.length ≤ s.resumeOffset
  creating : s.writer = .createFile → s.resuming = false ∧ s.buffer = [] ∧ s.transit = data ∧
    s.hashed = []
  writing : s.writer = .write → s.files s.path ≠ none ∧
    s.content ++ s.buffer ++ s.transit = s.base fs ++ data ∧
    s.hashed ++ s.transit = (s.base fs).take s.resumeOffset ++ data ∧
    s.buffer.length ≤ streamChunkSize
  done : s.writer = .done → s.recvResult = .ended → s.files s.path = some (s.base fs ++ data) ∧
    s.hashed = (s.base fs).take s.resumeOffset ++ data
  event : ∀ p d, s.event = some (.complete p d) → s.writer = .done ∧ p = s.path ∧
    d = C.blake3 s.hashed

theorem Stores.start (fs : Files) : Stores fs [] ({ files := fs } : State C) := by
  constructor <;> simp [State.transit]

theorem exists_of_isResume {fs : Files} {outputDir : Text} {request : TransferRequest}
    (h : isResume fs outputDir request) : fs (finalPath fs outputDir request) ≠ none := by
  have hex : fs.exists? (outputPath outputDir request.fileName) := by
    simp only [isResume, Bool.and_eq_true] at h
    exact h.2
  simp only [finalPath, h, if_true]
  exact Option.isSome_iff_ne_none.mp hex

theorem Stores.step {outputDir : Text} {fs : Files} {data : Bytes} {asked : Bool}
    {i o : List Item} {s t : State C} {a : Act} (h : Stores fs data s)
    (hp : Phases outputDir fs s) (ht : Takes data asked i o s)
    (hs : Receiver.step outputDir s a = some t) : Stores fs (data ++ a.payload) t := by
  have hidle : s.pc.deciding → s.writer = .idle := fun hd => (hp.deciding hd).1
  obtain ⟨h1, h2, h3, h4, h5, h6⟩ := h
  cases a with
  | command c =>
    obtain ⟨control, hc, rfl⟩ := Option.map_eq_some_iff.mp hs
    simp only [Act.payload, List.append_nil]
    exact ⟨h1, h2, h3, h4, h5, h6⟩
  | prepare =>
    simp only [Receiver.step, Act.payload, List.append_nil, guarded_eq_some] at hs ⊢
    obtain ⟨g, rfl⟩ := hs
    have hw := hidle (by simp [g, Pc.deciding])
    refine ⟨h1, by simp [hw], by simp [hw], by simp [hw], by simp [hw], fun p d he => ?_⟩
    simpa [hw] using (h6 p d he).1
  | respond =>
    simp only [Receiver.step, Act.payload, List.append_nil, guarded_eq_some] at hs ⊢
    obtain ⟨g, rfl⟩ := hs
    have hw := hidle (by simp [g, Pc.deciding])
    obtain ⟨hb, hh, htr, rfl⟩ := h1 hw
    have hf := (hp.deciding (by simp [g, Pc.deciding])).2.2
    have hev : ∀ p d, s.event ≠ some (.complete p d) := fun p d he => by
      simpa [hw] using (h6 p d he).1
    cases hr : s.resuming with
    | true =>
      refine ⟨by simp, fun _ => ⟨rfl, hf, hb, htr, by simp [hh], by simp [hh]⟩, by simp,
        by simp, by simp, fun p d he => absurd he (hev p d)⟩
    | false =>
      exact ⟨by simp, by simp, fun _ => ⟨rfl, hb, htr, hh⟩, by simp, by simp,
        fun p d he => absurd he (hev p d)⟩
  | read more =>
    simp only [Receiver.step, Act.payload, guarded_eq_some] at hs ⊢
    obtain ⟨⟨g, -⟩, rfl⟩ := hs
    have hheld : s.held = [] := ht.held (by simp [g])
    have hrun : s.recvResult = .running := ht.looping (by simp [g, Pc.looping])
    have hw : s.writer ≠ .idle := hp.streaming (by simp [g, Pc.streaming])
    have htr : s.channel.flatten ++ more = s.transit ++ more := by simp [State.transit, hheld]
    refine ⟨fun hi => absurd hi hw, fun hi => ?_, fun hi => ?_, fun hi => ?_, ?_, h6⟩
    · obtain ⟨hr, hf, hb, hd, hrest⟩ := h2 hi
      exact ⟨hr, hf, hb, by rw [← hd]; exact htr, hrest⟩
    · obtain ⟨hr, hb, hd, hh⟩ := h3 hi
      exact ⟨hr, hb, by rw [← hd]; exact htr, hh⟩
    · obtain ⟨hf, hc, hh, hb⟩ := h4 hi
      refine ⟨hf, ?_, ?_, hb⟩
      · show s.content ++ s.buffer ++ (s.channel.flatten ++ more) = s.base fs ++ (data ++ more)
        rw [htr, ← List.append_assoc, hc, List.append_assoc]
      · show s.hashed ++ (s.channel.flatten ++ more) = _
        rw [htr, ← List.append_assoc, hh, List.append_assoc]
        rfl
    · simp [hrun]
  | forward =>
    simp only [Receiver.step, Act.payload, List.append_nil, guarded_eq_some] at hs ⊢
    obtain ⟨⟨g, -⟩, rfl⟩ := hs
    have htr : (s.channel ++ [s.held]).flatten ++ [] = s.transit := by simp [State.transit]
    have hw : s.writer ≠ .idle := hp.streaming (by simp [g, Pc.streaming])
    refine ⟨fun hi => absurd hi hw, fun hi => ?_, fun hi => ?_, fun hi => ?_, h5, h6⟩
    · obtain ⟨hr, hf, hb, hd, hrest⟩ := h2 hi
      exact ⟨hr, hf, hb, htr.trans hd, hrest⟩
    · obtain ⟨hr, hb, hd, hh⟩ := h3 hi
      exact ⟨hr, hb, htr.trans hd, hh⟩
    · obtain ⟨hf, hc, hh, hb⟩ := h4 hi
      rw [← htr] at hc hh
      exact ⟨hf, hc, hh, hb⟩
  | endOfStream =>
    simp only [Receiver.step, Act.payload, List.append_nil, guarded_eq_some] at hs ⊢
    obtain ⟨g, rfl⟩ := hs
    have hopen : s.closed = false := hp.running (by simp [g, Pc.looping])
    refine ⟨h1, h2, h3, h4, fun hi => ?_, h6⟩
    simpa [hopen] using hp.closed hi
  | seeCancel =>
    simp only [Receiver.step, Act.payload, List.append_nil, guarded_eq_some] at hs ⊢
    obtain ⟨g, rfl⟩ := hs
    exact ⟨h1, h2, h3, h4, by simp, h6⟩
  | readError detail =>
    simp only [Receiver.step, Act.payload, List.append_nil, guarded_eq_some] at hs ⊢
    obtain ⟨g, rfl⟩ := hs
    exact ⟨h1, h2, h3, h4, by simp, h6⟩
  | writerGone =>
    simp only [Receiver.step, Act.payload, List.append_nil, guarded_eq_some] at hs ⊢
    obtain ⟨g, rfl⟩ := hs
    exact ⟨h1, h2, h3, h4, by simp, h6⟩
  | createDirError detail =>
    simp only [Receiver.step, Act.payload, List.append_nil, guarded_eq_some] at hs ⊢
    obtain ⟨g, rfl⟩ := hs
    exact ⟨h1, h2, h3, h4, h5, by simp⟩
  | hashPrefix n =>
    simp only [Receiver.step, Act.payload, List.append_nil, guarded_eq_some] at hs ⊢
    obtain ⟨⟨g, hlt, hn, hlen, -⟩, rfl⟩ := hs
    obtain ⟨hr, hf, hb, hd, hh, hle⟩ := h2 g
    have hbase : s.content = s.base fs := by simp [State.content, State.base, hr, hf]
    refine ⟨by simp [g], fun _ => ⟨hr, hf, hb, hd, ?_, ?_⟩, by simp [g], by simp [g],
      by simp [g], fun p d he => by simpa [g] using (h6 p d he).1⟩
    · show s.hashed ++ (s.content.drop s.hashed.length).take n =
        (s.base fs).take (s.hashed ++ (s.content.drop s.hashed.length).take n).length
      have hlen' : (s.hashed ++ (s.content.drop s.hashed.length).take n).length =
          s.hashed.length + n := by
        rw [List.length_append, List.length_take, List.length_drop]
        omega
      rw [hlen', List.take_add, hbase, ← hh]
    · show (s.hashed ++ (s.content.drop s.hashed.length).take n).length ≤ s.resumeOffset
      rw [List.length_append, List.length_take]
      omega
  | openAppend =>
    simp only [Receiver.step, Act.payload, List.append_nil, guarded_eq_some] at hs ⊢
    obtain ⟨⟨g, hge⟩, rfl⟩ := hs
    obtain ⟨hr, hf, hb, hd, hh, hle⟩ := h2 g
    obtain ⟨hres, hpath, -⟩ := hp.chosen (.inr (by simp [g]))
    have hex : s.files s.path ≠ none := by
      rw [hf, hpath]
      exact exists_of_isResume (hres ▸ hr)
    refine ⟨by simp, by simp, by simp, fun _ => ⟨hex, ?_, ?_, by simp [hb]⟩, by simp,
      fun p d he => by simpa [g] using (h6 p d he).1⟩
    · show s.content ++ s.buffer ++ s.transit = _
      have hbase : s.content = s.base fs := by simp [State.content, State.base, hr, hf]
      rw [hb, hd, hbase, List.append_nil]
      rfl
    · show s.hashed ++ s.transit = _
      rw [hh, hd, le_antisymm hle hge]
      rfl
  | createFile =>
    simp only [Receiver.step, Act.payload, List.append_nil, guarded_eq_some] at hs ⊢
    obtain ⟨g, rfl⟩ := hs
    obtain ⟨hr, hb, hd, hh⟩ := h3 g
    refine ⟨by simp, by simp, by simp, fun _ => ⟨by simp, ?_, ?_, by simp [hb]⟩, by simp,
      fun p d he => by simpa [g] using (h6 p d he).1⟩
    · show ((s.files.set s.path (some [])) s.path).getD [] ++ s.buffer ++ s.transit = _
      simp [hb, hd, State.base, hr]
    · show s.hashed ++ s.transit = _
      simp [hh, hd, State.base, hr]
  | writeChunk chunk =>
    simp only [Receiver.step, Act.payload, List.append_nil, guarded_eq_some] at hs ⊢
    obtain ⟨⟨g, hhead⟩, rfl⟩ := hs
    obtain ⟨rest, hrest⟩ := List.head?_eq_some_iff.mp hhead
    obtain ⟨hf, hc, hh, hb⟩ := h4 g
    have htr : s.transit = chunk ++ (rest.flatten ++ s.held) := by simp [State.transit, hrest]
    have hall := BufWriter.writeAll_append streamChunkSize s.content s.buffer chunk hb
    refine ⟨by simp [g], by simp [g], by simp [g], fun _ => ⟨by simp, ?_, ?_, ?_⟩, by simp [g],
      fun p d he => by simpa [g] using (h6 p d he).1⟩
    · show ((s.files.set s.path (some _)) s.path).getD [] ++ _ ++ (s.channel.tail.flatten ++ s.held) = _
      rw [Files.set_self, Option.getD_some, hall, hrest, List.tail_cons, List.append_assoc, ← htr, hc]
      rfl
    · show s.hashed ++ chunk ++ (s.channel.tail.flatten ++ s.held) = _
      rw [hrest, List.tail_cons, List.append_assoc, ← htr, hh]
      rfl
    · exact BufWriter.writeAll_buf_le streamChunkSize s.content s.buffer chunk hb
  | flush =>
    simp only [Receiver.step, Act.payload, List.append_nil, guarded_eq_some] at hs ⊢
    obtain ⟨⟨g, hch, hcl⟩, rfl⟩ := hs
    obtain ⟨hf, hc, hh, hb⟩ := h4 g
    refine ⟨by simp, by simp, by simp, by simp, fun _ hr => ?_,
      fun p d he => by simpa [g] using (h6 p d he).1⟩
    have hheld : s.held = [] := ht.held (.inr (.inr (.inr hr)))
    have htr : s.transit = [] := by simp [State.transit, hch, hheld]
    rw [htr, List.append_nil] at hc hh
    refine ⟨?_, hh⟩
    show (s.files.set s.path (some (s.content ++ s.buffer))) s.path = _
    rw [Files.set_self, hc]
    rfl
  | settle e =>
    simp only [Receiver.step, Act.payload, List.append_nil, guarded_eq_some] at hs ⊢
    obtain ⟨⟨g, hr⟩, rfl⟩ := hs
    have hw := hp.settled (by simp [g])
    exact ⟨h1, by simp [hw], h3, by simp [hw], by simp [hr],
      fun p d he => absurd (Option.some.inj he) (RecvError.event_ne_complete e p d)⟩
  | complete =>
    simp only [Receiver.step, Act.payload, List.append_nil, guarded_eq_some] at hs ⊢
    obtain ⟨⟨g, hr⟩, rfl⟩ := hs
    have hw := hp.settled (by simp [g])
    refine ⟨h1, h2, h3, h4, h5, fun p d he => ?_⟩
    simp only [Option.some.injEq, TransferEvent.complete.injEq] at he
    exact ⟨hw, he.1.symm, he.2.symm⟩
  | diskError detail =>
    simp only [Receiver.step, Act.payload, List.append_nil, guarded_eq_some] at hs ⊢
    obtain ⟨g, rfl⟩ := hs
    refine ⟨by simp, by simp, by simp, by simp, by simp, fun p d he => ?_⟩
    have hw := (h6 p d he).1
    simp [hw] at g
  | writeError detail =>
    simp only [Receiver.step, Act.payload, List.append_nil, guarded_eq_some] at hs ⊢
    obtain ⟨g, rfl⟩ := hs
    exact ⟨by simp, by simp, by simp, by simp, by simp, by simp⟩
  | _ =>
    simp only [Receiver.step, Act.payload, List.append_nil, guarded_eq_some] at hs ⊢
    obtain ⟨g, rfl⟩ := hs
    exact ⟨h1, h2, h3, h4, h5, h6⟩

end Receiver

end P2PTransfer.Alpn
