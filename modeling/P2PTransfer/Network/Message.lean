import P2PTransfer.Lib.Reading
import P2PTransfer.Network.Frame

/-!
# Messages on a TCP stream

`send_message` and `receive_message`, and the tagged messages that `send_tagged` and
`receive_tagged` make of them. The transport may cut the stream anywhere. A reader gets the
payloads that were sent, and fails at the first one that has not arrived whole or is too long.

## Main definitions

- `sendMessage`, `receiveMessage` — a payload after its length, and the next one of a stream
- `sendTagged`, `receiveTagged` — the same with a tag
- `failure` — why the next call fails on a stream
-/

namespace P2PTransfer

open Transition

/-- What `send_message` writes. -/
def sendMessage (data : Bytes) : Bytes := Framing.enframe 8 data

inductive ReceiveError where
  | length
  | oversized (length : Nat)
  | payload
deriving DecidableEq

def ReceiveError.text : ReceiveError → Text
  | .length => "Failed to read message length".toList
  | .oversized n => "Oversized message: ".toList ++ Nat.toDigits 10 n ++
      " bytes exceeds max ".toList ++ Nat.toDigits 10 maxPayloadSize
  | .payload => "Failed to read message payload".toList

/-- `u64::from_be_bytes` -/
def messageLength (header : Bytes) : Nat := Framing.value header.reverse

/-- `receive_message` on a stream that comes in pieces, and what it leaves of it. -/
def receiveMessage (pieces : List Bytes) : Except ReceiveError Bytes × List Bytes :=
  match Framing.readExact 8 pieces with
  | (none, rest) => (.error .length, rest)
  | (some header, rest) =>
    if maxPayloadSize < messageLength header then
      (.error (.oversized (messageLength header)), rest)
    else match Framing.readExact (messageLength header) rest with
      | (none, rest) => (.error .payload, rest)
      | (some payload, rest) => (.ok payload, rest)

/-- What repeated calls of `receive_message` return, and what they are left with. -/
def receiveMessages (stream : Bytes) : List Bytes × Bytes :=
  Framing.unframeAll 8 maxPayloadSize stream.length stream

inductive TaggedError where
  | message (e : ReceiveError)
  | empty
deriving DecidableEq

def TaggedError.text : TaggedError → Text
  | .message e => e.text
  | .empty => "Empty message".toList

def sendTagged (message : UInt8 × Bytes) : Bytes := sendMessage (message.1 :: message.2)

def receiveTagged (pieces : List Bytes) : Except TaggedError (UInt8 × Bytes) × List Bytes :=
  match receiveMessage pieces with
  | (.error e, rest) => (.error (.message e), rest)
  | (.ok [], rest) => (.error .empty, rest)
  | (.ok (tag :: payload), rest) => (.ok (tag, payload), rest)

/-- Why `receive_message` fails on a stream: it ends inside the length or inside the payload, or
the length is above the limit. -/
def failure (stream : Bytes) : Option ReceiveError :=
  if stream.length < 8 then some .length
  else if maxPayloadSize < messageLength (stream.take 8) then
    some (.oversized (messageLength (stream.take 8)))
  else if stream.length < 8 + messageLength (stream.take 8) then some .payload
  else none

theorem receiveMessage_sendMessage {data rest : Bytes} {pieces : List Bytes}
    (hlen : data.length ≤ maxPayloadSize)
    (h : Framing.Delivers pieces (sendMessage data ++ rest)) :
    ∃ pieces', receiveMessage pieces = (.ok data, pieces') ∧ Framing.Delivers pieces' rest := by
  rw [sendMessage, Framing.enframe, List.append_assoc] at h
  obtain ⟨pieces₁, hheader, h₁⟩ := Framing.readExact_append h
  obtain ⟨pieces₂, hpayload, h₂⟩ := Framing.readExact_append h₁
  have hvalue : messageLength (Framing.octets 8 data.length).reverse = data.length := by
    rw [messageLength, List.reverse_reverse, Framing.value_octets]
    exact lt_of_le_of_lt hlen (by decide)
  rw [List.length_reverse, Framing.length_octets] at hheader
  refine ⟨pieces₂, ?_, h₂⟩
  rw [receiveMessage, hheader]
  dsimp only
  rw [hvalue, if_neg (Nat.not_lt.mpr hlen), hpayload]

theorem receiveMessage_failure {stream : Bytes} {e : ReceiveError} {pieces : List Bytes}
    (he : failure stream = some e) (h : Framing.Delivers pieces stream) :
    (receiveMessage pieces).1 = .error e := by
  unfold failure at he
  split at he
  · next hshort =>
    obtain rfl := Option.some.inj he
    have hread := Framing.readExact_short h hshort
    unfold receiveMessage
    split
    · rfl
    · next hr => simp [hr] at hread
  · next hlong =>
    rw [← List.take_append_drop 8 stream] at h
    obtain ⟨pieces₁, hheader, h₁⟩ := Framing.readExact_append h
    rw [List.length_take_of_le (Nat.not_lt.mp hlong)] at hheader
    rw [receiveMessage, hheader]
    dsimp only
    split at he
    · next hover =>
      obtain rfl := Option.some.inj he
      rw [if_pos hover]
    · next hfits =>
      rw [if_neg hfits]
      split at he
      · next hshort =>
        obtain rfl := Option.some.inj he
        have hread := Framing.readExact_short (n := messageLength (stream.take 8)) h₁
          (by rw [List.length_drop]; omega)
        split
        · rfl
        · next hr => simp [hr] at hread
      · cases he

/-- A stream on which the next call succeeds begins with a message. -/
theorem sendMessage_of_failure_eq_none {stream : Bytes} (h : failure stream = none) :
    ∃ data rest, data.length ≤ maxPayloadSize ∧ stream = sendMessage data ++ rest := by
  unfold failure at h
  split at h
  · cases h
  · split at h
    · cases h
    · split at h
      · cases h
      · next hlong hfits hwhole =>
        have hhead : (stream.take 8).length = 8 := List.length_take_of_le (Nat.not_lt.mp hlong)
        have hdata : ((stream.drop 8).take (messageLength (stream.take 8))).length =
            messageLength (stream.take 8) := by
          apply List.length_take_of_le
          rw [List.length_drop]
          omega
        refine ⟨(stream.drop 8).take (messageLength (stream.take 8)),
          (stream.drop 8).drop (messageLength (stream.take 8)), by omega, ?_⟩
        have hoctets : (Framing.octets 8 (messageLength (stream.take 8))).reverse =
            stream.take 8 := by
          have hback := Framing.octets_value (stream.take 8).reverse
          rw [List.length_reverse, hhead] at hback
          rw [messageLength, hback, List.reverse_reverse]
        rw [sendMessage, Framing.enframe, hdata, hoctets, List.append_assoc,
          List.take_append_drop, List.take_append_drop]

/-- Every stream is a number of messages and a rest on which the next call fails. -/
theorem exists_messages (stream : Bytes) :
    ∃ (payloads : List Bytes) (tail : Bytes) (e : ReceiveError), (∀ m ∈ payloads, m.length ≤ maxPayloadSize) ∧
      stream = (payloads.map sendMessage).flatten ++ tail ∧ failure tail = some e := by
  induction hn : stream.length using Nat.strong_induction_on generalizing stream with
  | _ n ih =>
    cases hf : failure stream with
    | some e => exact ⟨[], stream, e, by simp, rfl, hf⟩
    | none =>
      obtain ⟨data, rest, hlen, rfl⟩ := sendMessage_of_failure_eq_none hf
      have hless : rest.length < n := by
        rw [← hn, List.length_append, sendMessage, Framing.length_enframe]
        omega
      obtain ⟨payloads, tail, e, hall, hrest, he⟩ := ih _ hless rest rfl
      refine ⟨data :: payloads, tail, e, ?_, ?_, he⟩
      · intro m hm
        rcases List.mem_cons.mp hm with rfl | hm
        · exact hlen
        · exact hall m hm
      · rw [hrest, List.map_cons, List.flatten_cons, List.append_assoc]

/-- **Exact framing.** Whatever pieces a stream arrives in, the calls return the payloads that
were sent and leave what comes after them, and the call that meets a bad message fails. Every
stream is of this kind. -/
theorem framing_exact :
    (∀ (payloads : List Bytes) (rest : Bytes) (pieces : List Bytes),
      (∀ m ∈ payloads, m.length ≤ maxPayloadSize) →
      Framing.Delivers pieces ((payloads.map sendMessage).flatten ++ rest) →
      ∃ pieces', Framing.calls receiveMessage payloads.length pieces = (payloads, none, pieces') ∧
        Framing.Delivers pieces' rest) ∧
    (∀ (payloads : List Bytes) (tail : Bytes) (e : ReceiveError) (pieces : List Bytes),
      (∀ m ∈ payloads, m.length ≤ maxPayloadSize) → failure tail = some e →
      Framing.Delivers pieces ((payloads.map sendMessage).flatten ++ tail) →
      ∃ pieces', Framing.calls receiveMessage (payloads.length + 1) pieces =
        (payloads, some e, pieces')) ∧
    ∀ stream : Bytes, ∃ (payloads : List Bytes) (tail : Bytes) (e : ReceiveError),
      (∀ m ∈ payloads, m.length ≤ maxPayloadSize) ∧
        stream = (payloads.map sendMessage).flatten ++ tail ∧ failure tail = some e := by
  have hread : ∀ payloads : List Bytes, (∀ m ∈ payloads, m.length ≤ maxPayloadSize) →
      ∀ m ∈ payloads, ∀ pieces rest, Framing.Delivers pieces (sendMessage m ++ rest) →
        ∃ pieces', receiveMessage pieces = (.ok m, pieces') ∧ Framing.Delivers pieces' rest :=
    fun payloads hall m hm pieces rest h => receiveMessage_sendMessage (hall m hm) h
  refine ⟨fun payloads rest pieces hall h => ?_, fun payloads tail e pieces hall he h => ?_,
    exists_messages⟩
  · obtain ⟨pieces', hrest, hcalls⟩ := Framing.calls_encoded (hread payloads hall) h
    refine ⟨pieces', ?_, hrest⟩
    rw [← Nat.add_zero payloads.length, hcalls 0, Framing.calls, List.append_nil]
  · obtain ⟨pieces', hrest, hcalls⟩ := Framing.calls_encoded (hread payloads hall) h
    have hfail := receiveMessage_failure he hrest
    rw [hcalls 1, Framing.calls]
    split
    · next hr => simp [hr] at hfail
    · next e' pieces'' hr =>
      rw [hr] at hfail
      obtain rfl := Except.error.inj hfail
      exact ⟨pieces'', by rw [List.append_nil]⟩

/-- Two messages in three pieces, and the same stream cut off after its length. -/
theorem framing_exact_pieces :
    (∃ pieces', Framing.calls receiveMessage 2
      [[0, 0, 0, 0, 0], [0, 0, 1, 7, 0, 0, 0, 0, 0], [0, 0, 2, 8, 9]] =
        ([[7], [8, 9]], none, pieces')) ∧
    ∃ pieces', Framing.calls receiveMessage 2 [[0, 0, 0, 0, 0, 0, 0, 1], [7, 0]] =
      ([[7]], some .length, pieces') := by
  obtain ⟨whole, broken, -⟩ := framing_exact
  constructor
  · obtain ⟨pieces', hcalls, -⟩ := whole [[7], [8, 9]] []
      [[0, 0, 0, 0, 0], [0, 0, 1, 7, 0, 0, 0, 0, 0], [0, 0, 2, 8, 9]] (by decide)
      ⟨by decide, by decide⟩
    exact ⟨pieces', hcalls⟩
  · exact broken [[7]] [0] .length [[0, 0, 0, 0, 0, 0, 0, 1], [7, 0]] (by decide) (by decide)
      ⟨by decide, by decide⟩

theorem unframe_of_failure {stream : Bytes} {e : ReceiveError} (h : failure stream = some e) :
    Framing.unframe 8 maxPayloadSize stream = none := by
  unfold Framing.unframe
  rw [if_neg]
  rintro ⟨hlong, hfits, hwhole⟩
  have hfits : messageLength (stream.take 8) ≤ maxPayloadSize := hfits
  have hwhole : 8 + messageLength (stream.take 8) ≤ stream.length := hwhole
  rw [failure, if_neg (Nat.not_lt.mpr hlong), if_neg (Nat.not_lt.mpr hfits),
    if_neg (Nat.not_lt.mpr hwhole)] at h
  cases h

/-- The messages that are there are those that the calls return. -/
theorem calls_receiveMessage {stream : Bytes} {pieces : List Bytes}
    (h : Framing.Delivers pieces stream) :
    (Framing.calls receiveMessage (stream.length + 1) pieces).1 = (receiveMessages stream).1 := by
  obtain ⟨payloads, tail, e, hall, rfl, he⟩ := exists_messages stream
  have hroom : payloads.length ≤ ((payloads.map sendMessage).flatten ++ tail).length := by
    have := Framing.length_le_flatten (show 0 < 8 by decide) payloads
    rw [List.length_append]
    exact this.trans (Nat.le_add_right _ _)
  have hmessages : receiveMessages ((payloads.map sendMessage).flatten ++ tail) =
      (payloads, tail) :=
    Framing.unframeAll_enframe hall (by decide) (unframe_of_failure he) hroom
  obtain ⟨more, hmore⟩ := Nat.exists_eq_add_of_le hroom
  obtain ⟨pieces', hrest, hcalls⟩ := Framing.calls_encoded
    (fun m hm pieces rest => receiveMessage_sendMessage (hall m hm)) h
  have hfail := receiveMessage_failure he hrest
  rw [hmessages, hmore, Nat.add_assoc, hcalls, Framing.calls]
  split
  · next hr => simp [hr] at hfail
  · exact List.append_nil _

/-- Tagged messages arrive as they were sent. -/
theorem receiveTagged_sendTagged {message : UInt8 × Bytes} {rest : Bytes} {pieces : List Bytes}
    (hlen : message.2.length < maxPayloadSize)
    (h : Framing.Delivers pieces (sendTagged message ++ rest)) :
    ∃ pieces', receiveTagged pieces = (.ok message, pieces') ∧ Framing.Delivers pieces' rest := by
  obtain ⟨pieces', hread, hrest⟩ := receiveMessage_sendMessage
    (show (message.1 :: message.2).length ≤ maxPayloadSize from hlen) h
  exact ⟨pieces', by rw [receiveTagged, hread], hrest⟩

theorem calls_receiveTagged {messages : List (UInt8 × Bytes)} {rest : Bytes} {pieces : List Bytes}
    (hlen : ∀ m ∈ messages, m.2.length < maxPayloadSize)
    (h : Framing.Delivers pieces ((messages.map sendTagged).flatten ++ rest)) :
    ∃ pieces', Framing.calls receiveTagged messages.length pieces = (messages, none, pieces') ∧
      Framing.Delivers pieces' rest := by
  obtain ⟨pieces', hrest, hcalls⟩ := Framing.calls_encoded
    (fun m hm pieces rest => receiveTagged_sendTagged (hlen m hm)) h
  refine ⟨pieces', ?_, hrest⟩
  rw [← Nat.add_zero messages.length, hcalls 0, Framing.calls, List.append_nil]

section Cut

variable {answers : List Bytes} {stream : Bytes} {pieces : List Bytes}

/-- A length that fits its eight bytes can be read from them. -/
theorem sendMessage_prefix {data answer rest rest' : Bytes} (hdata : data.length < 2 ^ 64)
    (hanswer : answer.length < 2 ^ 64)
    (h : sendMessage data ++ rest <+: sendMessage answer ++ rest') :
    data = answer ∧ rest <+: rest' := by
  obtain ⟨more, hmore⟩ := h
  rw [List.append_assoc] at hmore
  have hlen : data.length = answer.length := by
    have hhead := congrArg (List.take 8) hmore
    rw [sendMessage, sendMessage, Framing.take_enframe, Framing.take_enframe] at hhead
    have hvalue := congrArg Framing.value (List.reverse_injective hhead)
    rwa [Framing.value_octets hdata, Framing.value_octets hanswer] at hvalue
  have hwhole : (sendMessage data).length = (sendMessage answer).length := by
    rw [sendMessage, sendMessage, Framing.length_enframe, Framing.length_enframe, hlen]
  obtain ⟨hsame, hrest⟩ := List.append_inj hmore hwhole
  rw [sendMessage, sendMessage, Framing.enframe, Framing.enframe, hlen] at hsame
  exact ⟨List.append_cancel_left hsame, more, hrest⟩

/-- What a client reads of answers that have been cut off is a beginning of the answers. -/
theorem calls_receiveMessage_prefix (hfits : ∀ a ∈ answers, a.length < 2 ^ 64)
    (h : Framing.Delivers pieces stream) (hcut : stream <+: (answers.map sendMessage).flatten)
    (n : Nat) : (Framing.calls receiveMessage n pieces).1 <+: answers := by
  have hprefix := @Framing.calls_prefix _ _ _ _ receiveMessage Framing.Delivers sendMessage answers
  refine hprefix ?_ ?_ h hcut n
  · intro a ha pieces stream rest hpieces hstream
    cases hf : failure stream with
    | some e => exact .inl ⟨e, _, Prod.ext (receiveMessage_failure hf hpieces) rfl⟩
    | none =>
      obtain ⟨data, more, hsmall, rfl⟩ := sendMessage_of_failure_eq_none hf
      have hdata : data.length < 2 ^ 64 := lt_of_le_of_lt hsmall (by decide)
      obtain ⟨rfl, hmore⟩ := sendMessage_prefix hdata (hfits a ha) hstream
      obtain ⟨pieces', hread, hpieces'⟩ := receiveMessage_sendMessage hsmall hpieces
      exact .inr ⟨pieces', more, hread, hpieces', hmore⟩
  · intro pieces hpieces
    exact ⟨.length, _, Prod.ext (receiveMessage_failure (by decide) hpieces) rfl⟩

/-- Messages that are there as a whole are the first ones of a stream. -/
theorem receiveMessages_append {payloads : List Bytes} (rest : Bytes)
    (hsmall : ∀ m ∈ payloads, m.length ≤ maxPayloadSize) :
    (receiveMessages ((payloads.map sendMessage).flatten ++ rest)).1 =
      payloads ++ (receiveMessages rest).1 := by
  have hread : ∀ (ms : List Bytes) (tail : Bytes) (e : ReceiveError),
      (∀ m ∈ ms, m.length ≤ maxPayloadSize) → failure tail = some e →
        (receiveMessages ((ms.map sendMessage).flatten ++ tail)).1 = ms := by
    intro ms tail e hms he
    have hroom := Framing.length_le_flatten (show 0 < 8 by decide) ms
    have hall := Framing.unframeAll_enframe hms (by decide) (unframe_of_failure he)
      (n := ((ms.map sendMessage).flatten ++ tail).length)
      (hroom.trans (by rw [List.length_append]; exact Nat.le_add_right _ _))
    exact congrArg Prod.fst hall
  obtain ⟨others, tail, e, hothers, rfl, he⟩ := exists_messages rest
  rw [hread others tail e hothers he, ← List.append_assoc, ← List.flatten_append,
    ← List.map_append]
  apply hread _ tail e _ he
  intro m hm
  rcases List.mem_append.mp hm with hm | hm
  · exact hsmall m hm
  · exact hothers m hm

/-- There is no message where the next call fails. -/
theorem receiveMessages_of_failure {rest : Bytes} {e : ReceiveError} (h : failure rest = some e) :
    (receiveMessages rest).1 = [] := by
  unfold receiveMessages
  cases rest.length with
  | zero => rfl
  | succ n => rw [Framing.unframeAll, unframe_of_failure h]

/-- A payload of which something is missing. -/
theorem failure_header {n : Nat} {unread : Bytes} (hn : n ≤ maxPayloadSize)
    (hshort : unread.length < n) :
    failure ((Framing.octets 8 n).reverse ++ unread) = some .payload := by
  have hlen : ((Framing.octets 8 n).reverse ++ unread).length = 8 + unread.length := by
    rw [List.length_append, List.length_reverse, Framing.length_octets]
  have hhead : ((Framing.octets 8 n).reverse ++ unread).take 8 = (Framing.octets 8 n).reverse := by
    rw [List.take_append_of_le_length (by simp), List.take_of_length_le (by simp)]
  have hvalue : messageLength (Framing.octets 8 n).reverse = n := by
    rw [messageLength, List.reverse_reverse,
      Framing.value_octets (lt_of_le_of_lt hn (by decide))]
  rw [failure, hlen, hhead, hvalue, if_neg (by omega), if_neg (Nat.not_lt.mpr hn),
    if_pos (by omega)]

theorem failure_oversized {held unread : Bytes} (hlen : held.length = 8)
    (hover : maxPayloadSize < messageLength held) :
    failure (held ++ unread) = some (.oversized (messageLength held)) := by
  have hhead : (held ++ unread).take 8 = held := by
    rw [List.take_append_of_le_length hlen.ge, List.take_of_length_le hlen.le]
  rw [failure, hhead, List.length_append, if_neg (by omega), if_pos hover]

/-- A length that has been read is written back the same. -/
theorem octets_messageLength {header : Bytes} (h : header.length = 8) :
    (Framing.octets 8 (messageLength header)).reverse = header := by
  have hback := Framing.octets_value header.reverse
  rw [List.length_reverse, h] at hback
  rw [messageLength, hback, List.reverse_reverse]

end Cut

end P2PTransfer
