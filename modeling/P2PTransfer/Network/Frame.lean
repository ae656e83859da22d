import P2PTransfer.Transfer.Metadata

/-!
# The frames of the tagged TCP protocol

Every message of the TCP transfers is one length-prefixed frame: a tag byte and a
payload. `receive_message` refuses a frame of more than `MAX_PAYLOAD_SIZE` bytes,
which only a chunk can reach.

## Main definitions

- `Frame`, `Frame.oversized` — a message, and whether its reader refuses it
- `acceptText`, `parseU64` — the text of an accepting reply and its number
- `Frame.offset`, `Frame.accepts` — how the senders read the reply
-/

namespace P2PTransfer

def tagMetadata : UInt8 := 0x00

def tagChunk : UInt8 := 0x01

def tagChunkAck : UInt8 := 0x02

def tagComplete : UInt8 := 0x03

def tagError : UInt8 := 0x04

def tagClientHello : UInt8 := 0x05

def tagServerHello : UInt8 := 0x06

/-- `MAX_PAYLOAD_SIZE`. -/
def maxPayloadSize : Nat := 64 * 1024 * 1024

/-- What follows the tag. A digest travels as its bytes or as hexadecimal text. -/
inductive Payload (C : Primitives) where
  | key (k : C.Public)
  | metadata (m : TransferMetadata C)
  | text (t : Text)
  | chunk (index : Nat) (compressed : Bool) (data : Bytes)
  | index (i : Nat)
  | digest (d : C.Digest)
  | hex (d : C.Digest)
deriving DecidableEq

structure Frame (C : Primitives) where
  tag : UInt8
  payload : Payload C
deriving DecidableEq

variable {C : Primitives}

namespace Frame

/-- Tag, index and flag come before the encrypted data of a chunk. -/
def size (f : Frame C) : Nat :=
  match f.payload with
  | .chunk _ _ data => 6 + data.length
  | _ => 0

def oversized (f : Frame C) : Bool := decide (maxPayloadSize < f.size)

/-- What the way of a frame through its receiver costs at most. -/
def weight (f : Frame C) : Nat :=
  match f.payload with
  | .chunk _ _ _ => 20
  | _ => 3

theorem weight_le (f : Frame C) : f.weight ≤ 20 := by
  unfold weight
  split <;> omega

theorem le_weight (f : Frame C) : 3 ≤ f.weight := by
  unfold weight
  split <;> omega

/-- A chunk with its index cut to 32 bits. -/
def ofChunk (index : Nat) (compressed : Bool) (data : Bytes) : Frame C :=
  ⟨tagChunk, .chunk (index % 2 ^ 32) compressed data⟩

def ofText (tag : UInt8) (t : Text) : Frame C := ⟨tag, .text t⟩

end Frame

/-- The reply that accepts a transfer from an offset on. -/
def acceptText (resumeOffset : Nat) : Text :=
  if 0 < resumeOffset then "ACCEPT:".toList ++ Nat.toDigits 10 resumeOffset
  else "ACCEPT".toList

/-- `str::parse::<u64>`: an optional plus sign and at least one digit, without
overflow. -/
def parseU64 (t : Text) : Option Nat :=
  let digits := if t.head? = some '+' then t.tail else t
  if digits ≠ [] ∧ digits.all Char.isDigit ∧ Nat.ofDigitChars 10 digits 0 < 2 ^ 64 then
    some (Nat.ofDigitChars 10 digits 0)
  else none

theorem parseU64_toDigits {n : Nat} (h : n < 2 ^ 64) : parseU64 (Nat.toDigits 10 n) = some n := by
  have hall : ∀ c ∈ Nat.toDigits 10 n, c.isDigit :=
    fun c hc => Nat.isDigit_of_mem_toDigits (by omega) (by omega) hc
  have hplus : (Nat.toDigits 10 n).head? ≠ some '+' := fun hp => by
    have := hall '+' (List.mem_of_head? hp)
    simp at this
  simp only [parseU64, hplus, if_false, Nat.ofDigitChars_ten_toDigits]
  rw [if_pos ⟨Nat.toDigits_ne_nil, List.all_eq_true.mpr hall, h⟩]

namespace Frame

/-- How `send_file_direct_tcp` reads the reply: the offset to start from, if the peer
accepts. -/
def offset (f : Frame C) : Option Nat :=
  match f.payload with
  | .text t =>
    if f.tag ≠ tagMetadata then none
    else if "ACCEPT:".toList <+: t then some ((parseU64 (t.drop 7)).getD 0)
    else if t = "ACCEPT".toList then some 0
    else none
  | _ => none

/-- How `cmd_send` reads the reply. -/
def accepts (f : Frame C) : Bool := decide (f = ofText tagMetadata "ACCEPT".toList)

/-- How the GUI's `send_file` reads the reply. The comparison is made on the whole
message, so that the tag would have to be the letter A. -/
def acceptsUntagged (f : Frame C) : Bool := decide (f = ofText 0x41 "CCEPT".toList)

theorem offset_acceptText {n : Nat} (h : n < 2 ^ 64) :
    (ofText tagMetadata (acceptText n) : Frame C).offset = some n := by
  unfold acceptText
  split
  · simp [offset, ofText, parseU64_toDigits h]
  · next h0 =>
    have : n = 0 := by omega
    simp [offset, ofText, this]

/-- No reply of a receiver is accepted by the GUI's command. -/
theorem acceptsUntagged_tagMetadata (p : Payload C) :
    (⟨tagMetadata, p⟩ : Frame C).acceptsUntagged = false := by
  simp [acceptsUntagged, ofText, tagMetadata]

end Frame

end P2PTransfer
