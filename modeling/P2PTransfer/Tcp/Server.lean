import P2PTransfer.Lib.Run
import P2PTransfer.Network.Message

/-!
# The message server

`TcpServer` accepts connections. For each one a task of its own reads messages, asks the handler
and writes the answers back, until the stream ends, something fails or the server has been
stopped. All tasks share the handler and the flag, and take their steps in any order.

## Main definitions

- `MessageHandler` — the handler, with the state behind it
- `Connection` — a connection: the bytes on it, and where `handle_connection` is
- `TcpServer`, `TcpServer.machine` — the server with the clients around it
- `Connection.Keeps` — what has become of the bytes of a connection
-/

namespace P2PTransfer

open Transition

/-- What the handler answers may depend on what it was asked before. An answer is a `Vec<u8>`. A call
of `handle_message` is one step of what all connections share. -/
structure MessageHandler (Addr σ ε : Type*) where
  answer : σ → Bytes → Addr → Except ε Bytes × σ
  fits : ∀ s request addr response, (answer s request addr).1 = .ok response →
    response.length < 2 ^ 64

inductive ConnectionError (ε : Type*) where
  | length
  | payload (eof : Bool)
  | handler (e : ε)
  | responseLength
  | response

/-- The context that `handle_connection` puts on an error of the stream. -/
def ConnectionError.text {ε : Type*} : ConnectionError ε → Option Text
  | .length => some "Failed to read message length".toList
  | .payload _ => some "Failed to read message payload".toList
  | .handler _ => none
  | .responseLength => some "Failed to write response length".toList
  | .response => some "Failed to write response".toList

/-- How `handle_connection` returns; the first three are `Ok(())`. -/
inductive Ended (ε : Type*) where
  | closed
  | oversized
  | stopped
  | failed (e : ConnectionError ε)

inductive TaskPhase (ε : Type*) where
  | absent
  | queued
  | check
  | length
  | payload (n : Nat)
  | handling (request : Bytes)
  | writing (header response : Bytes)
  | ended (r : Ended ε)

/-- `room` is how many more bytes of answers the buffers on the way to the client take. -/
structure Connection (ε : Type*) where
  sent : Bytes := []
  unread : Bytes := []
  eof : Bool := false
  written : Bytes := []
  room : Nat := 0
  phase : TaskPhase ε := .absent

inductive ClientAct where
  | connect
  | send (bytes : Bytes)
  | shutdown
  | makeRoom (n : Nat)

inductive TaskAct where
  | check
  | readLength
  | readPayload
  | write (n : Nat)
  | ioError
deriving DecidableEq

namespace Connection

variable {ε : Type*}

/-- A client sends at any time after its `connect`, in pieces of any size. It makes room for answers
when it connects and when it reads. -/
def client (c : Connection ε) : ClientAct → Option (Connection ε)
  | .connect => match c.phase with
    | .absent => some { c with phase := .queued }
    | _ => none
  | .send bytes => match c.phase with
    | .absent => none
    | _ => guarded (c.eof = false) { c with sent := c.sent ++ bytes, unread := c.unread ++ bytes }
  | .shutdown => match c.phase with
    | .absent => none
    | _ => some { c with eof := true }
  | .makeRoom n => match c.phase with
    | .absent => none
    | _ => some { c with room := c.room + n }

/-- What is left to write, or the next turn of the loop. -/
def afterWrite (header response : Bytes) : TaskPhase ε :=
  if header = [] ∧ response = [] then .check else .writing header response

/-- The steps of `handle_connection` but for the call of the handler. `read_exact` keeps to itself
what has come too early, so that it takes its bytes in one step. A write waits for room. -/
def task (c : Connection ε) (running : Bool) (a : TaskAct) : Option (Connection ε) :=
  match c.phase, a with
  | .check, .check => some { c with phase := if running then .length else .ended .stopped }
  | .length, .readLength =>
    if 8 ≤ c.unread.length then
      let n := messageLength (c.unread.take 8)
      some { c with
        unread := c.unread.drop 8
        phase := if maxPayloadSize < n then .ended .oversized else .payload n }
    else guarded (c.eof = true) { c with phase := .ended .closed }
  | .payload n, .readPayload =>
    if n ≤ c.unread.length then
      some { c with unread := c.unread.drop n, phase := .handling (c.unread.take n) }
    else guarded (c.eof = true) { c with phase := .ended (.failed (.payload true)) }
  | .writing header response, .write n =>
    if header = [] then
      guarded (n < response.length ∧ n < c.room) { c with
        written := c.written ++ response.take (n + 1)
        room := c.room - (n + 1)
        phase := afterWrite [] (response.drop (n + 1)) }
    else
      guarded (n < header.length ∧ n < c.room) { c with
        written := c.written ++ header.take (n + 1)
        room := c.room - (n + 1)
        phase := afterWrite (header.drop (n + 1)) response }
  | .length, .ioError => some { c with phase := .ended (.failed .length) }
  | .payload _, .ioError => some { c with phase := .ended (.failed (.payload false)) }
  | .writing header _, .ioError =>
    some { c with
      phase := .ended (.failed (if header = [] then .response else .responseLength)) }
  | _, _ => none

/-- After the call of the handler. -/
def replied (c : Connection ε) : Except ε Bytes → Connection ε
  | .ok response =>
    { c with phase := .writing (Framing.octets 8 response.length).reverse response }
  | .error e => { c with phase := .ended (.failed (.handler e)) }

/-- `accept_loop` has made a task of the connection. -/
def Accepted (c : Connection ε) : Prop :=
  match c.phase with
  | .absent | .queued => False
  | _ => True

end Connection

inductive Acceptor where
  | check
  | accepting
  | done
deriving DecidableEq

structure TcpServer (ι ε σ : Type*) where
  running : Bool
  acceptor : Acceptor
  connections : ι → Connection ε
  store : σ
  calls : List (ι × Bytes × Except ε Bytes)

inductive ServerAct (ι : Type*) where
  | look
  | accept (i : ι)
  | acceptError
  | stop
  | client (i : ι) (a : ClientAct)
  | task (i : ι) (a : TaskAct)
  | handle (i : ι)

/-- What the server does of itself, as long as its streams do not fail. -/
def ServerAct.Work {ι : Type*} : ServerAct ι → Prop
  | .look | .accept _ | .handle _ => True
  | .task _ a => a ≠ .ioError
  | .acceptError | .stop | .client _ _ => False

namespace TcpServer

variable {ι Addr ε σ : Type*} [DecidableEq ι]

/-- The server after `start`, when `accept_loop` begins. -/
def started (store : σ) : TcpServer ι ε σ where
  running := true
  acceptor := .check
  connections _ := {}
  store := store
  calls := []

def put (s : TcpServer ι ε σ) (i : ι) (c : Connection ε) : TcpServer ι ε σ :=
  { s with connections := Function.update s.connections i c }

variable (H : MessageHandler Addr σ ε) (addr : ι → Addr)

def step (s : TcpServer ι ε σ) : ServerAct ι → Option (TcpServer ι ε σ)
  | .look =>
    guarded (s.acceptor = .check) { s with acceptor := if s.running then .accepting else .done }
  | .accept i => match s.acceptor, (s.connections i).phase with
    | .accepting, .queued =>
      some { s.put i { s.connections i with phase := .check } with acceptor := .check }
    | _, _ => none
  | .acceptError => guarded (s.acceptor = .accepting) { s with acceptor := .check }
  | .stop => some { s with running := false }
  | .client i a => ((s.connections i).client a).map (s.put i)
  | .task i a => ((s.connections i).task s.running a).map (s.put i)
  | .handle i => match (s.connections i).phase with
    | .handling request =>
      let r := H.answer s.store request (addr i)
      some { s.put i ((s.connections i).replied r.1) with
        store := r.2
        calls := s.calls ++ [(i, request, r.1)] }
    | _ => none

def machine : Machine (TcpServer ι ε σ) (ServerAct ι) where
  step := step H addr

/-- The calls of the handler for one connection. -/
def callsOf (s : TcpServer ι ε σ) (i : ι) : List (Bytes × Except ε Bytes) :=
  (s.calls.filter fun q => decide (q.1 = i)).map Prod.snd

end TcpServer

namespace TaskPhase

variable {ε : Type*} {failed : Option (Bytes × ε)} {held pending : Bytes}

/-- The bytes that have been read for the next request, those that are still to be written, and
the request that the handler has refused. -/
def Fits (running : Bool) (unread : Bytes) (eof : Bool) (failed : Option (Bytes × ε))
    (held pending : Bytes) : TaskPhase ε → Prop
  | .absent | .queued | .check | .length => failed = none ∧ held = [] ∧ pending = []
  | .payload n => failed = none ∧ n ≤ maxPayloadSize ∧ held = (Framing.octets 8 n).reverse ∧
      pending = []
  | .handling request => failed = none ∧ request.length ≤ maxPayloadSize ∧
      held = sendMessage request ∧ pending = []
  | .writing header response => failed = none ∧ held = [] ∧ pending = header ++ response ∧
      pending ≠ []
  | .ended .closed => failed = none ∧ held = [] ∧ pending = [] ∧ eof = true ∧ unread.length < 8
  | .ended .oversized => failed = none ∧ held.length = 8 ∧ maxPayloadSize < messageLength held ∧
      pending = []
  | .ended .stopped => failed = none ∧ held = [] ∧ pending = [] ∧ running = false
  | .ended (.failed (.payload true)) => failed = none ∧ pending = [] ∧ eof = true ∧
      ∃ n, n ≤ maxPayloadSize ∧ held = (Framing.octets 8 n).reverse ∧ unread.length < n
  | .ended (.failed (.handler e)) => held = [] ∧ pending = [] ∧ ∃ request, failed = some (request, e)
  | .ended (.failed _) => failed = none

/-- The end of a stream and a `stop` are for good. -/
theorem Fits.later {running running' eof eof' : Bool} {unread unread' : Bytes} {phase : TaskPhase ε}
    (h : phase.Fits running unread eof failed held pending)
    (hrunning : running = false → running' = false)
    (heof : eof = true → eof' = true ∧ unread' = unread) :
    phase.Fits running' unread' eof' failed held pending := by
  cases phase with
  | ended r =>
    cases r with
    | closed =>
      obtain ⟨hfailed, hheld, hpending, hend, hshort⟩ := h
      obtain ⟨hend', rfl⟩ := heof hend
      exact ⟨hfailed, hheld, hpending, hend', hshort⟩
    | stopped =>
      obtain ⟨hfailed, hheld, hpending, hstop⟩ := h
      exact ⟨hfailed, hheld, hpending, hrunning hstop⟩
    | oversized => exact h
    | failed e =>
      cases e with
      | payload b =>
        cases b with
        | true =>
          obtain ⟨hfailed, hpending, hend, hshort⟩ := h
          obtain ⟨hend', rfl⟩ := heof hend
          exact ⟨hfailed, hpending, hend', hshort⟩
        | false => exact h
      | _ => exact h
  | _ => exact h

end TaskPhase

namespace Connection

variable {ε : Type*} {running : Bool} {c d : Connection ε} {answered : List (Bytes × Bytes)}
  {failed : Option (Bytes × ε)} {held pending : Bytes}

/-- The requests that the handler has been asked for. -/
def asked (answered : List (Bytes × Bytes)) (failed : Option (Bytes × ε)) : List Bytes :=
  answered.map Prod.fst ++ (failed.map Prod.fst).toList

/-- The calls of the handler, of which the last one may have failed. -/
def outcomes (answered : List (Bytes × Bytes)) (failed : Option (Bytes × ε)) :
    List (Bytes × Except ε Bytes) :=
  answered.map (fun q => (q.1, .ok q.2)) ++ (failed.map fun q => (q.1, .error q.2)).toList

/-- Every byte of a connection has its place: those that came in belong to requests in their
order, those that went out to the answers. -/
structure Keeps (running : Bool) (c : Connection ε) (answered : List (Bytes × Bytes))
    (failed : Option (Bytes × ε)) (held pending : Bytes) : Prop where
  sent : c.sent = ((asked answered failed).map sendMessage).flatten ++ (held ++ c.unread)
  small : ∀ q ∈ asked answered failed, q.length ≤ maxPayloadSize
  written : c.written ++ pending = ((answered.map Prod.snd).map sendMessage).flatten
  fits : ∀ q ∈ answered, q.2.length < 2 ^ 64
  phase : c.phase.Fits running c.unread c.eof failed held pending

theorem Keeps.later {running' : Bool} (h : c.Keeps running answered failed held pending)
    (hrunning : running = false → running' = false) :
    c.Keeps running' answered failed held pending where
  sent := h.sent
  small := h.small
  written := h.written
  fits := h.fits
  phase := h.phase.later hrunning fun heof => ⟨heof, rfl⟩

theorem client_cases {a : ClientAct} (hs : c.client a = some d) :
    (c.phase = .absent ∧ d = { c with phase := .queued }) ∨
      (c.phase ≠ .absent ∧ d.phase = c.phase ∧ d.written = c.written ∧
        ∃ bytes, d.sent = c.sent ++ bytes ∧ d.unread = c.unread ++ bytes ∧
          (c.eof = true → d.eof = true ∧ bytes = [])) := by
  obtain ⟨sent, unread, eof, written, room, phase⟩ := c
  cases a with
  | connect =>
    cases phase with
    | absent => exact .inl ⟨rfl, (Option.some.inj hs).symm⟩
    | _ => cases hs
  | shutdown | makeRoom n =>
    cases phase with
    | absent => cases hs
    | _ =>
      obtain rfl := Option.some.inj hs
      exact .inr ⟨by simp, rfl, rfl, [], by simp⟩
  | send bytes =>
    cases phase with
    | absent => cases hs
    | _ =>
      obtain ⟨heof, rfl⟩ := guarded_eq_some.mp hs
      refine .inr ⟨by simp, rfl, rfl, bytes, rfl, rfl, fun hend => ?_⟩
      exact absurd (heof.symm.trans hend) Bool.false_ne_true

theorem Keeps.client (h : c.Keeps running answered failed held pending) {a : ClientAct}
    (hs : c.client a = some d) : d.Keeps running answered failed held pending := by
  rcases client_cases hs with ⟨habsent, rfl⟩ | ⟨-, hphase, hwritten, bytes, hsent, hunread, heof⟩
  · have hfits := h.phase
    rw [habsent] at hfits
    exact ⟨h.sent, h.small, h.written, h.fits, hfits⟩
  · refine ⟨?_, h.small, hwritten ▸ h.written, h.fits, ?_⟩
    · rw [hsent, hunread, h.sent, List.append_assoc, List.append_assoc]
    · rw [hphase]
      apply h.phase.later id
      intro hend
      obtain ⟨hend', rfl⟩ := heof hend
      exact ⟨hend', by rw [hunread, List.append_nil]⟩

theorem Keeps.readLength (h : c.Keeps running answered failed held pending)
    (hphase : c.phase = .length) (hlong : 8 ≤ c.unread.length) :
    ({ c with
      unread := c.unread.drop 8
      phase := if maxPayloadSize < messageLength (c.unread.take 8) then .ended .oversized
        else .payload (messageLength (c.unread.take 8)) } : Connection ε).Keeps running answered
      failed (c.unread.take 8) pending := by
  have hfits := h.phase
  rw [hphase] at hfits
  obtain ⟨hnone, rfl, rfl⟩ := hfits
  have hhead : (c.unread.take 8).length = 8 := List.length_take_of_le hlong
  refine ⟨?_, h.small, h.written, h.fits, ?_⟩
  · rw [List.take_append_drop]
    exact h.sent
  · dsimp only
    split
    · next hover => exact ⟨hnone, hhead, hover, rfl⟩
    · next hunder =>
      exact ⟨hnone, Nat.not_lt.mp hunder, (octets_messageLength hhead).symm, rfl⟩

theorem Keeps.readPayload {n : Nat} (h : c.Keeps running answered failed held pending)
    (hphase : c.phase = .payload n) (hlong : n ≤ c.unread.length) :
    ({ c with unread := c.unread.drop n, phase := .handling (c.unread.take n) } :
      Connection ε).Keeps running answered failed (sendMessage (c.unread.take n)) pending := by
  have hfits := h.phase
  rw [hphase] at hfits
  obtain ⟨hnone, hsmall, rfl, rfl⟩ := hfits
  have htake : (c.unread.take n).length = n := List.length_take_of_le hlong
  refine ⟨?_, h.small, h.written, h.fits, hnone, htake.le.trans hsmall, rfl, rfl⟩
  rw [sendMessage, Framing.enframe, htake, List.append_assoc, List.take_append_drop]
  exact h.sent

/-- A write moves bytes from what is pending to the stream. -/
theorem Keeps.write (h : c.Keeps running answered failed held pending)
    {header response part rest : Bytes} (hphase : c.phase = .writing header response)
    {header' response' : Bytes} (hpart : header ++ response = part ++ rest)
    (hrest : rest = header' ++ response') (room : Nat) :
    ({ c with
      written := c.written ++ part, room := room, phase := afterWrite header' response' } :
      Connection ε).Keeps running answered failed held rest := by
  have hfits := h.phase
  rw [hphase] at hfits
  obtain ⟨hnone, hheld, rfl, -⟩ := hfits
  refine ⟨h.sent, h.small, ?_, h.fits, ?_⟩
  · rw [List.append_assoc, ← hpart]
    exact h.written
  · show (afterWrite header' response').Fits running c.unread c.eof failed held rest
    unfold afterWrite
    split
    · next hdone =>
      rw [hdone.1, hdone.2] at hrest
      exact ⟨hnone, hheld, hrest⟩
    · next hmore =>
      refine ⟨hnone, hheld, hrest, ?_⟩
      rw [hrest]
      exact fun hnil => hmore (List.append_eq_nil_iff.mp hnil)

/-- The steps of a task keep the account, though not what they hold. -/
theorem Keeps.task (h : c.Keeps running answered failed held pending) {a : TaskAct}
    (hs : c.task running a = some d) :
    ∃ held' pending', d.Keeps running answered failed held' pending' := by
  have hfits := h.phase
  unfold Connection.task at hs
  split at hs
  · next hphase =>
    obtain rfl := Option.some.inj hs
    rw [hphase] at hfits
    refine ⟨held, pending, h.sent, h.small, h.written, h.fits, ?_⟩
    dsimp only
    split
    · exact hfits
    · next hstop => exact ⟨hfits.1, hfits.2.1, hfits.2.2, by simpa using hstop⟩
  · next hphase =>
    split at hs
    · next hlong =>
      obtain rfl := Option.some.inj hs
      exact ⟨_, _, h.readLength hphase hlong⟩
    · next hshort =>
      obtain ⟨heof, rfl⟩ := guarded_eq_some.mp hs
      rw [hphase] at hfits
      exact ⟨held, pending, h.sent, h.small, h.written, h.fits, hfits.1, hfits.2.1, hfits.2.2, heof,
        Nat.not_le.mp hshort⟩
  · next n hphase =>
    split at hs
    · next hlong =>
      obtain rfl := Option.some.inj hs
      exact ⟨_, _, h.readPayload hphase hlong⟩
    · next hshort =>
      obtain ⟨heof, rfl⟩ := guarded_eq_some.mp hs
      rw [hphase] at hfits
      exact ⟨held, pending, h.sent, h.small, h.written, h.fits, hfits.1, hfits.2.2.2, heof, n,
        hfits.2.1, hfits.2.2.1, Nat.not_le.mp hshort⟩
  · next header response n hphase =>
    split at hs
    · next hheader =>
      obtain ⟨-, rfl⟩ := guarded_eq_some.mp hs
      refine ⟨held, response.drop (n + 1), h.write hphase ?_ (List.nil_append _).symm _⟩
      rw [hheader, List.nil_append, List.take_append_drop]
    · obtain ⟨-, rfl⟩ := guarded_eq_some.mp hs
      refine ⟨held, header.drop (n + 1) ++ response, h.write hphase ?_ rfl _⟩
      rw [← List.append_assoc, List.take_append_drop]
  · next hphase =>
    obtain rfl := Option.some.inj hs
    rw [hphase] at hfits
    exact ⟨held, pending, h.sent, h.small, h.written, h.fits, hfits.1⟩
  · next hphase =>
    obtain rfl := Option.some.inj hs
    rw [hphase] at hfits
    exact ⟨held, pending, h.sent, h.small, h.written, h.fits, hfits.1⟩
  · next header response hphase =>
    obtain rfl := Option.some.inj hs
    rw [hphase] at hfits
    refine ⟨held, pending, h.sent, h.small, h.written, h.fits, ?_⟩
    dsimp only
    split <;> exact hfits.1
  · cases hs

/-- The answer of the handler is the one to the request that has been read last. -/
theorem Keeps.replied {request : Bytes} (h : c.Keeps running answered failed held pending)
    (hphase : c.phase = .handling request) (r : Except ε Bytes)
    (hr : ∀ response, r = .ok response → response.length < 2 ^ 64) :
    ∃ answered' failed' pending', (c.replied r).Keeps running answered' failed' [] pending' ∧
      outcomes answered' failed' = outcomes answered failed ++ [(request, r)] := by
  have hfits := h.phase
  rw [hphase] at hfits
  obtain ⟨rfl, hsmall, rfl, rfl⟩ := hfits
  have hwritten := h.written
  rw [List.append_nil] at hwritten
  have hsent := h.sent
  simp only [asked, Option.map_none, Option.toList_none, List.append_nil] at hsent
  have hall : ∀ q ∈ answered.map Prod.fst ++ [request], q.length ≤ maxPayloadSize := by
    intro q hq
    rcases List.mem_append.mp hq with hq | hq
    · exact h.small q (List.mem_append_left _ hq)
    · rwa [List.mem_singleton.mp hq]
  have htaken : c.sent = ((answered.map Prod.fst ++ [request]).map sendMessage).flatten ++
      ([] ++ c.unread) := by
    rw [hsent]
    simp
  cases r with
  | ok response =>
    refine ⟨answered ++ [(request, response)], none, sendMessage response, ⟨?_, ?_, ?_, ?_, ?_⟩, ?_⟩
    · simpa [asked, Connection.replied] using htaken
    · simpa [asked] using hall
    · simp [Connection.replied, hwritten]
    · intro q hq
      rcases List.mem_append.mp hq with hq | hq
      · exact h.fits q hq
      · obtain rfl := List.mem_singleton.mp hq
        exact hr response rfl
    · refine ⟨rfl, rfl, rfl, ?_⟩
      apply List.ne_nil_of_length_pos
      rw [sendMessage, Framing.length_enframe]
      omega
    · simp [outcomes]
  | error e =>
    refine ⟨answered, some (request, e), [], ⟨?_, ?_, ?_, h.fits, ?_⟩, ?_⟩
    · simpa [asked, Connection.replied] using htaken
    · simpa [asked] using hall
    · simpa [Connection.replied] using hwritten
    · exact ⟨rfl, rfl, request, rfl⟩
    · simp [outcomes]

theorem Keeps.receiveMessages (h : c.Keeps running answered failed held pending) :
    (P2PTransfer.receiveMessages c.sent).1 =
      asked answered failed ++ (P2PTransfer.receiveMessages (held ++ c.unread)).1 := by
  rw [h.sent]
  exact receiveMessages_append _ h.small

end Connection

/-- A handler that is asked for one request after another. -/
def MessageHandler.asks {ι Addr ε σ : Type*} (H : MessageHandler Addr σ ε) (addr : ι → Addr) :
    σ → List (ι × Bytes) → List (ι × Bytes × Except ε Bytes) × σ
  | store, [] => ([], store)
  | store, q :: qs =>
    let r := H.answer store q.2 (addr q.1)
    ((q.1, q.2, r.1) :: (asks H addr r.2 qs).1, (asks H addr r.2 qs).2)

theorem MessageHandler.asks_append {ι Addr ε σ : Type*} (H : MessageHandler Addr σ ε)
    (addr : ι → Addr) (store : σ) (qs rs : List (ι × Bytes)) :
    H.asks addr store (qs ++ rs) =
      ((H.asks addr store qs).1 ++ (H.asks addr (H.asks addr store qs).2 rs).1,
        (H.asks addr (H.asks addr store qs).2 rs).2) := by
  induction qs generalizing store with
  | nil => rfl
  | cons q qs ih =>
    rw [List.cons_append, asks, asks, ih]
    rfl

namespace TcpServer

variable {ι Addr ε σ : Type*} [DecidableEq ι] {H : MessageHandler Addr σ ε} {addr : ι → Addr}
  {s t : TcpServer ι ε σ} {i j : ι} {store : σ}

/-- What a step of the server does. -/
theorem step_cases {a : ServerAct ι} (hs : (machine H addr).step s a = some t) :
    (a = .look ∧ s.acceptor = .check ∧
        t = { s with acceptor := if s.running then .accepting else .done }) ∨
      (∃ i, a = .accept i ∧ s.acceptor = .accepting ∧ (s.connections i).phase = .queued ∧
        t = { s.put i { s.connections i with phase := .check } with acceptor := .check }) ∨
      (a = .acceptError ∧ s.acceptor = .accepting ∧ t = { s with acceptor := .check }) ∨
      (a = .stop ∧ t = { s with running := false }) ∨
      (∃ i b c, a = .client i b ∧ (s.connections i).client b = some c ∧ t = s.put i c) ∨
      (∃ i b c, a = .task i b ∧ (s.connections i).task s.running b = some c ∧ t = s.put i c) ∨
      ∃ i request, a = .handle i ∧ (s.connections i).phase = .handling request ∧
        t = { s.put i ((s.connections i).replied (H.answer s.store request (addr i)).1) with
          store := (H.answer s.store request (addr i)).2
          calls := s.calls ++ [(i, request, (H.answer s.store request (addr i)).1)] } := by
  cases a with
  | look =>
    obtain ⟨hcheck, rfl⟩ := guarded_eq_some.mp hs
    exact .inl ⟨rfl, hcheck, rfl⟩
  | accept i =>
    simp only [machine, step] at hs
    split at hs
    · next haccepting hqueued =>
      obtain rfl := Option.some.inj hs
      exact .inr (.inl ⟨i, rfl, haccepting, hqueued, rfl⟩)
    · cases hs
  | acceptError =>
    obtain ⟨haccepting, rfl⟩ := guarded_eq_some.mp hs
    exact .inr (.inr (.inl ⟨rfl, haccepting, rfl⟩))
  | stop =>
    obtain rfl := Option.some.inj hs
    exact .inr (.inr (.inr (.inl ⟨rfl, rfl⟩)))
  | client i b =>
    obtain ⟨c, hc, rfl⟩ := Option.map_eq_some_iff.mp hs
    exact .inr (.inr (.inr (.inr (.inl ⟨i, b, c, rfl, hc, rfl⟩))))
  | task i b =>
    obtain ⟨c, hc, rfl⟩ := Option.map_eq_some_iff.mp hs
    exact .inr (.inr (.inr (.inr (.inr (.inl ⟨i, b, c, rfl, hc, rfl⟩)))))
  | handle i =>
    simp only [machine, step] at hs
    split at hs
    · next request hphase =>
      obtain rfl := Option.some.inj hs
      exact .inr (.inr (.inr (.inr (.inr (.inr ⟨i, request, rfl, hphase, rfl⟩)))))
    · cases hs

@[simp] theorem callsOf_put (s : TcpServer ι ε σ) (i : ι) (c : Connection ε) (j : ι) :
    (s.put i c).callsOf j = s.callsOf j := rfl

theorem put_self (s : TcpServer ι ε σ) (i : ι) (c : Connection ε) :
    (s.put i c).connections i = c := by
  simp only [put, Function.update_self]

theorem put_of_ne (s : TcpServer ι ε σ) (c : Connection ε) (h : j ≠ i) :
    (s.put i c).connections j = s.connections j := by
  simp only [put, Function.update_of_ne h]

/-- A connection with the calls of the handler that were made for it. -/
def Tracks (s : TcpServer ι ε σ) (i : ι) : Prop :=
  ∃ answered failed held pending,
    (s.connections i).Keeps s.running answered failed held pending ∧
      s.callsOf i = Connection.outcomes answered failed

structure Inv (H : MessageHandler Addr σ ε) (addr : ι → Addr) (store : σ)
    (s : TcpServer ι ε σ) : Prop where
  replay : H.asks addr store (s.calls.map fun q => (q.1, q.2.1)) = (s.calls, s.store)
  tracks : ∀ i, s.Tracks i
  done : s.acceptor = .done → s.running = false

theorem inv_started (store : σ) : Inv H addr store (started store) where
  replay := rfl
  tracks i := by
    refine ⟨[], none, [], [], ⟨rfl, ?_, rfl, ?_, rfl, rfl, rfl⟩, rfl⟩
    · intro q hq
      exact absurd hq List.not_mem_nil
    · intro q hq
      exact absurd hq List.not_mem_nil
  done h := by cases h

/-- A connection is tracked on if it and its calls are what they were. -/
theorem Tracks.congr (h : s.Tracks i) (hconn : t.connections i = s.connections i)
    (hcalls : t.callsOf i = s.callsOf i) (hrunning : s.running = false → t.running = false) :
    t.Tracks i := by
  obtain ⟨answered, failed, held, pending, hkeeps, hout⟩ := h
  exact ⟨answered, failed, held, pending, hconn ▸ hkeeps.later hrunning, hcalls.trans hout⟩

/-- One connection changes, and the others with their calls do not. -/
theorem tracks_put (h : ∀ j, s.Tracks j) {c : Connection ε} (ht : t.connections = (s.put i c).connections)
    (hcalls : ∀ j, j ≠ i → t.callsOf j = s.callsOf j) (hrunning : t.running = s.running)
    (hi : t.Tracks i) : ∀ j, t.Tracks j := by
  intro j
  by_cases hj : j = i
  · exact hj ▸ hi
  · apply (h j).congr _ (hcalls j hj) (fun hstop => hrunning.trans hstop)
    rw [ht, put_of_ne s c hj]

theorem inv_step {a : ServerAct ι} (h : Inv H addr store s)
    (hs : (machine H addr).step s a = some t) : Inv H addr store t := by
  rcases step_cases hs with ⟨-, -, rfl⟩ | ⟨i, -, -, hqueued, rfl⟩ | ⟨-, -, rfl⟩ | ⟨-, rfl⟩ |
    ⟨i, b, c, -, hc, rfl⟩ | ⟨i, b, c, -, hc, rfl⟩ | ⟨i, request, -, hphase, rfl⟩
  · refine ⟨h.replay, fun j => (h.tracks j).congr rfl rfl id, ?_⟩
    intro hdone
    simpa using hdone
  · refine ⟨h.replay, tracks_put h.tracks rfl (fun _ _ => rfl) rfl ?_, fun hdone => by cases hdone⟩
    obtain ⟨answered, failed, held, pending, hkeeps, hout⟩ := h.tracks i
    have hfits := hkeeps.phase
    rw [hqueued] at hfits
    refine ⟨answered, failed, held, pending, ?_, hout⟩
    dsimp only
    rw [put_self]
    exact ⟨hkeeps.sent, hkeeps.small, hkeeps.written, hkeeps.fits, hfits⟩
  · exact ⟨h.replay, fun j => (h.tracks j).congr rfl rfl id, fun hdone => by cases hdone⟩
  · exact ⟨h.replay, fun j => (h.tracks j).congr rfl rfl fun _ => rfl, fun _ => rfl⟩
  · refine ⟨h.replay, tracks_put h.tracks rfl (fun _ _ => rfl) rfl ?_, h.done⟩
    obtain ⟨answered, failed, held, pending, hkeeps, hout⟩ := h.tracks i
    exact ⟨answered, failed, held, pending, (put_self s i c).symm ▸ hkeeps.client hc, hout⟩
  · refine ⟨h.replay, tracks_put h.tracks rfl (fun _ _ => rfl) rfl ?_, h.done⟩
    obtain ⟨answered, failed, held, pending, hkeeps, hout⟩ := h.tracks i
    obtain ⟨held', pending', hkeeps'⟩ := hkeeps.task hc
    exact ⟨answered, failed, held', pending', (put_self s i c).symm ▸ hkeeps', hout⟩
  · refine ⟨?_, tracks_put h.tracks rfl ?_ rfl ?_, h.done⟩
    · dsimp only
      rw [List.map_append, MessageHandler.asks_append, h.replay]
      rfl
    · intro j hj
      have hne : ¬ i = j := fun hij => hj hij.symm
      simp [callsOf, List.filter_append, hne]
    · obtain ⟨answered, failed, held, pending, hkeeps, hout⟩ := h.tracks i
      obtain ⟨answered', failed', pending', hkeeps', hout'⟩ :=
        hkeeps.replied hphase (H.answer s.store request (addr i)).1 (H.fits _ _ _)
      refine ⟨answered', failed', [], pending', ?_, ?_⟩
      · dsimp only
        rw [put_self]
        exact hkeeps'
      · rw [hout', ← hout]
        simp [callsOf, List.filter_append]

theorem inv_reach (h : (machine H addr).Reach (fun _ _ => True) (started store) s) :
    Inv H addr store s :=
  h.invariant (I := Inv H addr store) (inv_started store) fun _ _ _ hinv _ hs => inv_step hinv hs

/-- **Every request is answered once, in its order.** In every interleaving of clients, tasks,
failures and `stop`, the handler has been asked for the first messages of each connection, each
one once, in one order for all connections. Of the stream of answers a client reads, in whatever
pieces it comes, the answers to its first requests, and nothing else. -/
theorem answers_in_order (h : (machine H addr).Reach (fun _ _ => True) (started store) s) :
    H.asks addr store (s.calls.map fun q => (q.1, q.2.1)) = (s.calls, s.store) ∧
      ∀ i, ∃ answered failed, s.callsOf i = Connection.outcomes answered failed ∧
        Connection.asked answered failed <+: (receiveMessages (s.connections i).sent).1 ∧
        (s.connections i).written <+: ((answered.map Prod.snd).map sendMessage).flatten ∧
        ∀ pieces n, Framing.Delivers pieces (s.connections i).written →
          (Framing.calls receiveMessage n pieces).1 <+: answered.map Prod.snd := by
  have hinv := inv_reach h
  refine ⟨hinv.replay, fun i => ?_⟩
  obtain ⟨answered, failed, held, pending, hkeeps, hout⟩ := hinv.tracks i
  refine ⟨answered, failed, hout, ⟨_, hkeeps.receiveMessages.symm⟩, ⟨_, hkeeps.written⟩, ?_⟩
  intro pieces n hpieces
  apply calls_receiveMessage_prefix _ hpieces ⟨_, hkeeps.written⟩ n
  intro a ha
  obtain ⟨q, hq, rfl⟩ := List.mem_map.mp ha
  exact hkeeps.fits q hq

/-- A handler that answers with the number of requests before. -/
def counting : MessageHandler Unit Nat Unit where
  answer n _ _ := (.ok [UInt8.ofNat n], n + 1)
  fits _ _ _ _ h := by
    obtain rfl := Except.ok.inj h
    exact Nat.lt_of_lt_of_eq (show 1 < 2 ^ 64 by decide) rfl

/-- A client whose request comes in three pieces, with the task after each of them. -/
def counted : List (ServerAct Unit) :=
  [.client () .connect, .client () (.makeRoom 16), .look, .accept (), .look, .task () .check, .client () (.send [0, 0, 0]),
    .client () (.send [0, 0, 0, 0, 1]), .task () .readLength, .client () (.send [7, 0]),
    .task () .readPayload, .handle (), .task () (.write 2), .task () (.write 4), .task () (.write 0),
    .task () .check]

theorem answers_in_order_counted : ∃ s : TcpServer Unit Unit Nat,
    (machine counting id).run (started 0) counted = some s ∧
      s.callsOf () = [([7], .ok [0])] ∧
      counting.asks id 0 (s.calls.map fun q => (q.1, q.2.1)) = (s.calls, s.store) := by
  obtain ⟨s, hs⟩ : ∃ s, (machine counting id).run (started 0) counted = some s := ⟨_, rfl⟩
  have hreach : (machine counting id).Reach (fun _ _ => True) (started 0) s :=
    Machine.reach_of_run (fun _ _ _ => trivial) hs
  refine ⟨s, hs, ?_, (answers_in_order hreach).1⟩
  obtain rfl := Option.some.inj hs
  rfl

end TcpServer

/-- The stream has failed before the end of the task. -/
def Connection.Lost {ε : Type*} (c : Connection ε) : Prop :=
  match c.phase with
  | .ended (.failed .length) | .ended (.failed (.payload false)) | .ended (.failed .responseLength)
  | .ended (.failed .response) => True
  | _ => False

/-- The task waits for bytes that have not been sent or for room, or there is none. -/
def TaskPhase.Waits {ε : Type*} (unread : Bytes) (room : Nat) : TaskPhase ε → Prop
  | .absent | .ended _ => True
  | .length => unread.length < 8
  | .payload n => unread.length < n
  | .writing _ _ => room = 0
  | _ => False

theorem Connection.task_write_of_full {ε : Type*} (c : Connection ε) (running : Bool) (n : Nat)
    (h : c.room = 0) : c.task running (.write n) = none := by
  obtain ⟨sent, unread, eof, written, room, phase⟩ := c
  obtain rfl : room = 0 := h
  cases phase with
  | writing header response =>
    unfold task
    dsimp only
    split <;> exact guarded_eq_none.mpr fun hn => Nat.not_lt_zero _ hn.2
  | _ => rfl

/-- Where a task waits, there is no room, or all is written and no whole message is left. -/
theorem Connection.Keeps.waits {ε : Type*} {c : Connection ε} {answered : List (Bytes × Bytes)}
    {failed : Option (Bytes × ε)} {held pending : Bytes}
    (h : c.Keeps true answered failed held pending) (hwaits : c.phase.Waits c.unread c.room)
    (hlost : ¬ c.Lost) : (pending ≠ [] ∧ c.room = 0) ∨ (pending = [] ∧ (failed = none →
      c.phase ≠ .absent → ∃ e, failure (held ++ c.unread) = some e)) := by
  have hfits := h.phase
  have hshort : c.unread.length < 8 → failure ([] ++ c.unread) = some .length := fun hlen =>
    if_pos hlen
  unfold Connection.Lost at hlost
  cases hphase : c.phase with
  | absent =>
    rw [hphase] at hfits
    exact .inr ⟨hfits.2.2, fun _ hpresent => absurd rfl hpresent⟩
  | length =>
    rw [hphase] at hfits hwaits
    obtain ⟨-, rfl, rfl⟩ := hfits
    exact .inr ⟨rfl, fun _ _ => ⟨_, hshort hwaits⟩⟩
  | payload n =>
    rw [hphase] at hfits hwaits
    obtain ⟨-, hsmall, rfl, rfl⟩ := hfits
    exact .inr ⟨rfl, fun _ _ => ⟨_, failure_header hsmall hwaits⟩⟩
  | writing header response =>
    rw [hphase] at hfits hwaits
    exact .inl ⟨hfits.2.2.2, hwaits⟩
  | ended r =>
    rw [hphase] at hfits hlost
    right
    cases r with
    | closed =>
      obtain ⟨-, rfl, rfl, -, hlen⟩ := hfits
      exact ⟨rfl, fun _ _ => ⟨_, hshort hlen⟩⟩
    | oversized =>
      obtain ⟨-, hlen, hover, rfl⟩ := hfits
      exact ⟨rfl, fun _ _ => ⟨_, failure_oversized hlen hover⟩⟩
    | stopped => exact absurd hfits.2.2.2 (by decide)
    | failed e =>
      cases e with
      | payload eof =>
        cases eof with
        | true =>
          obtain ⟨-, rfl, -, n, hsmall, rfl, hlen⟩ := hfits
          exact ⟨rfl, fun _ _ => ⟨_, failure_header hsmall hlen⟩⟩
        | false => exact absurd trivial hlost
      | handler e =>
        obtain ⟨-, rfl, request, rfl⟩ := hfits
        exact ⟨rfl, fun hnone => by cases hnone⟩
      | _ => exact absurd trivial hlost
  | _ =>
    rw [hphase] at hwaits
    exact absurd hwaits id

namespace TcpServer

variable {ι Addr ε σ : Type*} [DecidableEq ι] {H : MessageHandler Addr σ ε} {addr : ι → Addr}
  {s t : TcpServer ι ε σ} {i j : ι} {store : σ}

/-- A task on which nothing goes on waits for its client, or has ended. -/
theorem waits_of_stuck (hinv : Inv H addr store s) (hrunning : s.running = true)
    (hstuck : (machine H addr).Stuck (fun _ a => a.Work) s) :
    (s.connections i).phase.Waits (s.connections i).unread (s.connections i).room := by
  have htask : ∀ a, a ≠ .ioError → (s.connections i).task s.running a = none := fun a ha =>
    Option.map_eq_none_iff.mp (hstuck (.task i a) ha)
  cases hphase : (s.connections i).phase with
  | absent => trivial
  | ended r => trivial
  | queued =>
    cases hacceptor : s.acceptor with
    | check => exact absurd hacceptor (guarded_eq_none.mp (hstuck .look trivial))
    | accepting =>
      have haccept := hstuck (.accept i) trivial
      simp [machine, step, hphase, hacceptor] at haccept
    | done => exact absurd (hinv.done hacceptor) (by simp [hrunning])
  | check =>
    have hcheck := htask .check (by decide)
    simp [Connection.task, hphase] at hcheck
  | length =>
    have hread := htask .readLength (by decide)
    simp only [Connection.task, hphase] at hread
    split at hread
    · cases hread
    · next hshort => exact Nat.not_le.mp hshort
  | payload n =>
    have hread := htask .readPayload (by decide)
    simp only [Connection.task, hphase] at hread
    split at hread
    · cases hread
    · next hshort => exact Nat.not_le.mp hshort
  | handling request =>
    have hhandle := hstuck (.handle i) trivial
    simp [machine, step, hphase] at hhandle
  | writing header response =>
    have hwrite := htask (.write 0) (by decide)
    obtain ⟨_, _, _, _, hkeeps, -⟩ := hinv.tracks i
    have hfits := hkeeps.phase
    rw [hphase] at hfits
    obtain ⟨-, -, rfl, hne⟩ := hfits
    simp only [Connection.task, hphase] at hwrite
    show (s.connections i).room = 0
    by_contra hroom
    have hpos : 0 < (s.connections i).room := Nat.pos_of_ne_zero hroom
    split at hwrite
    · next hheader =>
      rw [hheader, List.nil_append] at hne
      exact guarded_eq_none.mp hwrite ⟨List.length_pos_of_ne_nil hne, hpos⟩
    · next hheader => exact guarded_eq_none.mp hwrite ⟨List.length_pos_of_ne_nil hheader, hpos⟩

/-- **No request is left.** Where the server itself can do nothing more, every connection whose
stream has not failed has the answers to all the messages that its client has sent, up to the
first request that the handler has refused, unless the client leaves no room for them: then the
task waits with the rest of its last answer. -/
theorem answers_all (h : (machine H addr).Reach (fun _ _ => True) (started store) s)
    (hrunning : s.running = true) (hstuck : (machine H addr).Stuck (fun _ a => a.Work) s)
    (i : ι) (hlost : ¬ (s.connections i).Lost) :
    ∃ answered failed pending, s.callsOf i = Connection.outcomes answered failed ∧
      (s.connections i).written ++ pending = ((answered.map Prod.snd).map sendMessage).flatten ∧
      (pending ≠ [] → (s.connections i).room = 0) ∧
      (pending = [] → failed = none → (s.connections i).phase ≠ .absent →
        answered.map Prod.fst = (receiveMessages (s.connections i).sent).1) := by
  have hinv := inv_reach h
  have hwaits := waits_of_stuck (i := i) hinv hrunning hstuck
  obtain ⟨answered, failed, held, pending, hkeeps, hout⟩ := hinv.tracks i
  rw [hrunning] at hkeeps
  refine ⟨answered, failed, pending, hout, hkeeps.written, ?_, ?_⟩
  · intro hpending
    rcases hkeeps.waits hwaits hlost with ⟨-, hroom⟩ | ⟨hnil, -⟩
    · exact hroom
    · exact absurd hnil hpending
  · rintro hnil rfl hpresent
    rcases hkeeps.waits hwaits hlost with ⟨hpending, -⟩ | ⟨-, hrest⟩
    · exact absurd hnil hpending
    · obtain ⟨e, he⟩ := hrest rfl hpresent
      rw [hkeeps.receiveMessages, receiveMessages_of_failure he, Connection.asked]
      simp

/-- The same client, who makes no room. -/
def parked : List (ServerAct Unit) := .client () .connect :: (counted.drop 2).take 10

/-- The first client has the answer; of the answer to the other one nothing is written. -/
theorem answers_all_counted :
    (∃ s : TcpServer Unit Unit Nat, (machine counting id).run (started 0) counted = some s ∧
      ∃ answered failed, s.callsOf () = Connection.outcomes answered failed ∧
        (s.connections ()).written = ((answered.map Prod.snd).map sendMessage).flatten) ∧
    ∃ s : TcpServer Unit Unit Nat, (machine counting id).run (started 0) parked = some s ∧
      (s.connections ()).written = [] ∧ ∃ answered failed pending,
        s.callsOf () = Connection.outcomes answered failed ∧
          pending = ((answered.map Prod.snd).map sendMessage).flatten ∧
            (pending ≠ [] → (s.connections ()).room = 0) := by
  constructor
  · obtain ⟨s, hs⟩ : ∃ s, (machine counting id).run (started 0) counted = some s := ⟨_, rfl⟩
    have hreach : (machine counting id).Reach (fun _ _ => True) (started 0) s :=
      Machine.reach_of_run (fun _ _ _ => trivial) hs
    have hrest : s.running = true ∧ (machine counting id).Stuck (fun _ a => a.Work) s ∧
        ¬ (s.connections ()).Lost ∧ (s.connections ()).room = 7 := by
      obtain rfl := Option.some.inj hs
      refine ⟨rfl, fun a ha => ?_, id, rfl⟩
      cases a with
      | task i b => cases b with
        | ioError => exact absurd rfl ha
        | _ => rfl
      | look | accept | handle => rfl
      | _ => exact absurd ha id
    obtain ⟨answered, failed, pending, hcalls, hwritten, hroom, -⟩ :=
      answers_all hreach hrest.1 hrest.2.1 () hrest.2.2.1
    have hnil : pending = [] := by
      by_contra hne
      exact absurd (hrest.2.2.2.symm.trans (hroom hne)) (by decide)
    rw [hnil, List.append_nil] at hwritten
    exact ⟨s, hs, answered, failed, hcalls, hwritten⟩
  · obtain ⟨s, hs⟩ : ∃ s, (machine counting id).run (started 0) parked = some s := ⟨_, rfl⟩
    have hreach : (machine counting id).Reach (fun _ _ => True) (started 0) s :=
      Machine.reach_of_run (fun _ _ _ => trivial) hs
    have hfull : (s.connections ()).room = 0 := by
      obtain rfl := Option.some.inj hs
      rfl
    have hrest : s.running = true ∧ (machine counting id).Stuck (fun _ a => a.Work) s ∧
        ¬ (s.connections ()).Lost ∧ (s.connections ()).written = [] := by
      have hwrite := fun n => (s.connections ()).task_write_of_full s.running n hfull
      obtain rfl := Option.some.inj hs
      refine ⟨rfl, fun a ha => ?_, id, rfl⟩
      cases a with
      | task i b => cases b with
        | ioError => exact absurd rfl ha
        | write n => exact congrArg (Option.map _) (hwrite n)
        | _ => rfl
      | look | accept | handle => rfl
      | _ => exact absurd ha id
    obtain ⟨answered, failed, pending, hcalls, hwritten, hroom, -⟩ :=
      answers_all hreach hrest.1 hrest.2.1 () hrest.2.2.1
    rw [hrest.2.2.2, List.nil_append] at hwritten
    exact ⟨s, hs, hrest.2.2.2, answered, failed, pending, hcalls, hwritten, hroom⟩

end TcpServer

/-- The calls that a task can still make without looking at the flag. -/
def TaskPhase.left {ε : Type*} : TaskPhase ε → Nat
  | .length | .payload _ | .handling _ => 1
  | _ => 0

theorem Connection.task_left {ε : Type*} {c d : Connection ε} {a : TaskAct}
    (hs : c.task false a = some d) :
    d.phase.left ≤ c.phase.left ∧ (d.Accepted ↔ c.Accepted) := by
  unfold Connection.task at hs
  split at hs
  · next hphase =>
    obtain rfl := Option.some.inj hs
    simp [hphase, TaskPhase.left, Connection.Accepted]
  · next hphase =>
    split at hs
    · obtain rfl := Option.some.inj hs
      simp only [Connection.Accepted, hphase]
      split <;> simp [TaskPhase.left]
    · obtain ⟨-, rfl⟩ := guarded_eq_some.mp hs
      simp [hphase, TaskPhase.left, Connection.Accepted]
  · next n hphase =>
    split at hs
    · obtain rfl := Option.some.inj hs
      simp [hphase, TaskPhase.left, Connection.Accepted]
    · obtain ⟨-, rfl⟩ := guarded_eq_some.mp hs
      simp [hphase, TaskPhase.left, Connection.Accepted]
  · next header response n hphase =>
    have hwrite : ∀ header' response' : Bytes,
        (Connection.afterWrite header' response' : TaskPhase ε).left = 0 ∧
          (Connection.afterWrite header' response' = (TaskPhase.check : TaskPhase ε) ∨
            Connection.afterWrite header' response' = (.writing header' response' : TaskPhase ε)) := by
      intro header' response'
      unfold Connection.afterWrite
      split
      · exact ⟨rfl, .inl rfl⟩
      · exact ⟨rfl, .inr rfl⟩
    split at hs
    · obtain ⟨-, rfl⟩ := guarded_eq_some.mp hs
      obtain ⟨hleft, hcheck | hwriting⟩ := hwrite [] (response.drop (n + 1))
      · simp [Connection.Accepted, hphase, hcheck, TaskPhase.left]
      · simp [Connection.Accepted, hphase, hwriting, TaskPhase.left]
    · obtain ⟨-, rfl⟩ := guarded_eq_some.mp hs
      obtain ⟨hleft, hcheck | hwriting⟩ := hwrite (header.drop (n + 1)) response
      · simp [Connection.Accepted, hphase, hcheck, TaskPhase.left]
      · simp [Connection.Accepted, hphase, hwriting, TaskPhase.left]
  · next hphase =>
    obtain rfl := Option.some.inj hs
    simp [hphase, TaskPhase.left, Connection.Accepted]
  · next hphase =>
    obtain rfl := Option.some.inj hs
    simp [hphase, TaskPhase.left, Connection.Accepted]
  · next hphase =>
    obtain rfl := Option.some.inj hs
    simp [hphase, TaskPhase.left, Connection.Accepted]
  · cases hs

theorem Connection.client_left {ε : Type*} {c d : Connection ε} {a : ClientAct}
    (hs : c.client a = some d) : d.phase.left = c.phase.left ∧ (d.Accepted ↔ c.Accepted) := by
  rcases Connection.client_cases hs with ⟨habsent, rfl⟩ | ⟨-, hphase, -, -⟩
  · simp [habsent, TaskPhase.left, Connection.Accepted]
  · simp [hphase, Connection.Accepted]

theorem Connection.replied_left {ε : Type*} (c : Connection ε) (r : Except ε Bytes) :
    (c.replied r).phase.left = 0 ∧ (c.replied r).Accepted := by
  cases r with
  | ok response => exact ⟨rfl, trivial⟩
  | error e => exact ⟨rfl, trivial⟩

namespace TcpServer

variable {ι Addr ε σ : Type*} [DecidableEq ι] {H : MessageHandler Addr σ ε} {addr : ι → Addr}
  {s t u : TcpServer ι ε σ} {i j : ι}

/-- The connections that have been accepted since then. -/
def accepted (s t : TcpServer ι ε σ) : Set ι :=
  { i | (t.connections i).Accepted ∧ ¬ (s.connections i).Accepted }

/-- What is left of the server after `stop`. -/
structure Stopping (s t : TcpServer ι ε σ) : Prop where
  stopped : t.running = false
  calls : ∀ i, (t.callsOf i).length + (t.connections i).phase.left ≤
    (s.callsOf i).length + (s.connections i).phase.left
  accepts : (accepted s t).Subsingleton
  waiting : t.acceptor = .accepting → accepted s t = ∅

omit [DecidableEq ι] in
theorem accepted_congr (h : ∀ i, (u.connections i).Accepted ↔ (t.connections i).Accepted) :
    accepted s u = accepted s t := by
  ext i
  exact and_congr_left fun _ => h i

/-- A step of one connection that was accepted before. -/
theorem Stopping.put (h : Stopping s t) {c : Connection ε}
    (hu : u.connections = (t.put i c).connections) (hrunning : u.running = t.running)
    (hacceptor : u.acceptor = t.acceptor)
    (hcalls : ∀ j, j ≠ i → u.callsOf j = t.callsOf j)
    (hleft : (u.callsOf i).length + c.phase.left ≤
      (t.callsOf i).length + (t.connections i).phase.left)
    (haccepted : c.Accepted ↔ (t.connections i).Accepted) : Stopping s u := by
  have hsame : accepted s u = accepted s t := by
    apply accepted_congr
    intro j
    rw [hu]
    by_cases hj : j = i
    · rw [hj, put_self]
      exact haccepted
    · rw [put_of_ne t c hj]
  refine ⟨hrunning.trans h.stopped, fun j => ?_, hsame ▸ h.accepts, fun hwait => ?_⟩
  · by_cases hj : j = i
    · rw [hj, hu, put_self]
      exact hleft.trans (h.calls i)
    · rw [hcalls j hj, hu, put_of_ne t c hj]
      exact h.calls j
  · rw [hsame]
    exact h.waiting (hacceptor.symm.trans hwait)

theorem Stopping.step {a : ServerAct ι} (h : Stopping s t)
    (hs : (machine H addr).step t a = some u) : Stopping s u := by
  rcases step_cases hs with ⟨-, -, rfl⟩ | ⟨i, -, haccepting, hqueued, rfl⟩ | ⟨-, -, rfl⟩ |
    ⟨-, rfl⟩ | ⟨i, b, c, -, hc, rfl⟩ | ⟨i, b, c, -, hc, rfl⟩ | ⟨i, request, -, hphase, rfl⟩
  · refine ⟨h.stopped, h.calls, h.accepts, fun hwait => ?_⟩
    simp [h.stopped] at hwait
  · have hempty := h.waiting haccepting
    refine ⟨h.stopped, fun j => ?_, ?_, fun hwait => by cases hwait⟩
    · by_cases hj : j = i
      · have hcalls := h.calls i
        rw [hqueued] at hcalls
        dsimp only
        rw [hj, put_self]
        exact hcalls
      · dsimp only
        rw [put_of_ne t _ hj]
        exact h.calls j
    · have honly : ∀ j, j ∈ accepted s { t.put i { t.connections i with phase := .check } with
          acceptor := .check } → j = i := by
        intro j hj
        by_contra hne
        have hold : j ∈ accepted s t := by
          refine ⟨?_, hj.2⟩
          have hnew := hj.1
          dsimp only at hnew
          rwa [put_of_ne t _ hne] at hnew
        rw [hempty] at hold
        exact hold
      intro j hj k hk
      rw [honly j hj, honly k hk]
  · exact ⟨h.stopped, h.calls, h.accepts, fun hwait => by cases hwait⟩
  · exact ⟨rfl, h.calls, h.accepts, h.waiting⟩
  · obtain ⟨hleft, haccepted⟩ := Connection.client_left hc
    exact h.put rfl rfl rfl (fun _ _ => rfl) (Nat.add_le_add_left hleft.le _) haccepted
  · rw [h.stopped] at hc
    obtain ⟨hleft, haccepted⟩ := Connection.task_left hc
    exact h.put rfl rfl rfl (fun _ _ => rfl) (Nat.add_le_add_left hleft _) haccepted
  · obtain ⟨hleft, haccepted⟩ :=
      Connection.replied_left (t.connections i) (H.answer t.store request (addr i)).1
    refine h.put rfl rfl rfl ?_ ?_ (iff_of_true haccepted ?_)
    · intro j hj
      have hne : ¬ i = j := fun hij => hj hij.symm
      simp [callsOf, List.filter_append, hne]
    · rw [hleft, hphase]
      simp [callsOf, List.filter_append, TaskPhase.left]
    · simp [Connection.Accepted, hphase]

/-- **What `stop` leaves.** However the clients and the tasks go on after it, each connection gets
at most one more request to the handler, and at most one more connection is accepted. -/
theorem after_stop (hstop : s.running = false)
    (h : (machine H addr).Reach (fun _ _ => True) s t) :
    (∀ i, (t.callsOf i).length ≤ (s.callsOf i).length + 1) ∧ (accepted s t).Subsingleton := by
  have hstopping : Stopping s t := by
    refine h.invariant (I := Stopping s) ⟨hstop, fun _ => le_rfl, ?_, fun _ => ?_⟩
      fun _ _ _ hi _ hs => hi.step hs
    · rintro i ⟨hi, hn⟩
      exact absurd hi hn
    · ext i
      exact iff_of_false (fun hi => hi.2 hi.1) id
  refine ⟨fun i => ?_, hstopping.accepts⟩
  have hcalls := hstopping.calls i
  have hleft : (s.connections i).phase.left ≤ 1 := by
    unfold TaskPhase.left
    split <;> omega
  omega

/-- A request that is on its way into the handler when the server is stopped is still answered. -/
theorem after_stop_counted : ∃ s t : TcpServer Unit Unit Nat,
    (machine counting id).run (started 0) (counted.take 10 ++ [.stop]) = some s ∧
      (machine counting id).run s (counted.drop 10) = some t ∧
      (t.callsOf ()).length ≤ (s.callsOf ()).length + 1 ∧ (t.callsOf ()).length = 1 := by
  obtain ⟨s, hs⟩ : ∃ s, (machine counting id).run (started 0) (counted.take 10 ++ [.stop]) = some s :=
    ⟨_, rfl⟩
  obtain ⟨t, ht⟩ : ∃ t, (machine counting id).run s (counted.drop 10) = some t := by
    obtain rfl := Option.some.inj hs
    exact ⟨_, rfl⟩
  have hreach : (machine counting id).Reach (fun _ _ => True) s t :=
    Machine.reach_of_run (fun _ _ _ => trivial) ht
  have hstop : s.running = false := by
    obtain rfl := Option.some.inj hs
    rfl
  refine ⟨s, t, hs, ht, (after_stop hstop hreach).1 (), ?_⟩
  obtain rfl := Option.some.inj hs
  obtain rfl := Option.some.inj ht
  rfl

end TcpServer

end P2PTransfer
