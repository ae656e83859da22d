import P2PTransfer.Tcp.Session
import P2PTransfer.Transfer.Engine

/-!
# The sender of the desktop application

The command `send_file` sends each chunk and waits for an answer to it, whatever it is, and for
one more answer after the last chunk.

## Main definitions

- `SendFile.State`, `SendFile.Act`, `sendFile` — the command after the reply as a party
- `sendFileMetadata`, `sendFileOpening` — how it opens a connection
-/

namespace P2PTransfer.Gui

open Transition

variable {C : Primitives}

namespace SendFile

inductive Pc where
  | chunk
  | awaitAck
  | awaitComplete
  | returned
deriving DecidableEq, Repr

structure State (C : Primitives) where
  key : C.Key
  metadata : TransferMetadata C
  source : Bytes
  pc : Pc := .chunk
  chunkIndex : Nat := 0
  result : Option (Except Text Unit) := none

inductive Act (C : Primitives) where
  | chunk
  | ack (f : Frame C)
  | last
  | complete (f : Frame C)
  | hangup
  | error (detail : Text)

/-- The actions of a run without faults. -/
def Act.clean : Act C → Bool
  | .error _ => false
  | _ => true

def State.fail (s : State C) (detail : Text) : State C :=
  { s with pc := .returned, result := some (.error detail) }

def step (s : State C) : Act C → Option (State C)
  | .chunk => guarded (s.pc = .chunk ∧ s.chunkIndex < s.metadata.totalChunks)
      { s with pc := .awaitAck }
  | .ack f => guarded (s.pc = .awaitAck)
      (if f.oversized then s.fail "Oversized message".toList
       else { s with pc := .chunk, chunkIndex := s.chunkIndex + 1 })
  | .last => guarded (s.pc = .chunk ∧ s.metadata.totalChunks ≤ s.chunkIndex)
      { s with pc := .awaitComplete }
  -- the frame is not looked at
  | .complete f => guarded (s.pc = .awaitComplete)
      (if f.oversized then s.fail "Oversized message".toList
       else { s with pc := .returned, result := some (.ok ()) })
  | .hangup => guarded (s.pc = .awaitAck ∨ s.pc = .awaitComplete)
      (s.fail "Failed to read message length".toList)
  | .error detail => guarded (s.pc ≠ .returned) (s.fail detail)

end SendFile

/-- `send_file` after the reply. -/
def sendFile (C : Primitives) : Party (SendFile.State C) (SendFile.Act C) (Frame C) where
  step := SendFile.step
  recvs
    | .ack f | .complete f => [f]
    | _ => []
  sends s
    | .chunk => [Frame.ofChunk s.chunkIndex false
        (C.encrypt s.key (buildNonce s.metadata.noncePrefix s.chunkIndex)
          (prepareChunk s.source s.metadata s.chunkIndex))]
    | _ => []
  hangup
    | .hangup => true
    | _ => false
  closed s := decide (s.pc = .returned)

/-- What `send_file` announces. -/
def sendFileMetadata (C : Primitives) (sessionId fileName : Text) (source noncePrefix : Bytes) :
    TransferMetadata C :=
  { createMetadata C sessionId fileName source (16 * 1024 * 1024) false with
    noncePrefix := noncePrefix }

/-- `send_file` up to the reply. -/
def sendFileOpening (C : Primitives) (secret : C.Secret) (metadata : TransferMetadata C)
    (source : Bytes) : Opening C (SendFile.State C) where
  secret := secret
  metadata := metadata
  start key f :=
    if f.acceptsUntagged then some { key := key, metadata := metadata, source := source } else none

/-- The tag of a reply is part of what is compared. -/
theorem sendFileOpening_start (secret : C.Secret) (metadata : TransferMetadata C) (source : Bytes)
    (key : C.Key) (p : Payload C) :
    (sendFileOpening C secret metadata source).start key ⟨tagMetadata, p⟩ = none := by
  simp only [sendFileOpening, Frame.acceptsUntagged_tagMetadata, Bool.false_eq_true, if_false]

end P2PTransfer.Gui
