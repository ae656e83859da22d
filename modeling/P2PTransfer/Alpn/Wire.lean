import P2PTransfer.Alpn.Transfer
import P2PTransfer.Lib.Reading
import P2PTransfer.Network.Json

/-!
# The bytes of a QUIC transfer

`write_json` puts a message on the stream after its length, and the bytes of the file follow without
any mark. What the other side reads with `read_json` must end where they begin, in whatever pieces
the stream arrives. The messages are the objects that `serde` derives from their structures.

## Main definitions

- `TransferRequest.toJson`, `TransferRequest.ofJson` — the derived conversions
- `writeJson`, `readJson` — the framing
- `wire` — the bytes of the items that a side puts on the stream

## Main results

- `read_transfer` — what the two sides read of each other
-/

namespace P2PTransfer.Alpn.Wire

open Transition Discovery Json

/-- A field of an object, if it is there once. An object with a field twice is refused. -/
def field {α : Type} (o : Object) (key : Text) (read : JsonValue → Option α)
    (missing : Option α) : Option α :=
  match o.filter fun e => decide (e.1 = key) with
  | [] => missing
  | [e] => read e.2
  | _ :: _ :: _ => none

def readText : JsonValue → Option Text
  | .string t => some t
  | _ => none

def readU64 : JsonValue → Option Nat
  | .integer n => if 0 ≤ n ∧ n < 2 ^ 64 then some n.toNat else none
  | _ => none

def readBool : JsonValue → Option Bool
  | .bool b => some b
  | _ => none

/-- The request with the fields that the receiver only shows or ignores. -/
structure TransferRequest where
  requestId : Text
  senderName : Text
  senderNodeId : Text
  fileName : Text
  fileSize : Nat
  resumeOffset : Nat := 0
  forceRestart : Bool := false
deriving DecidableEq

namespace TransferRequest

/-- The derived `Serialize`. -/
def toJson (r : TransferRequest) : Fields :=
  [("request_id".toList, .string r.requestId), ("sender_name".toList, .string r.senderName),
    ("sender_node_id".toList, .string r.senderNodeId), ("file_name".toList, .string r.fileName),
    ("file_size".toList, .integer r.fileSize), ("resume_offset".toList, .integer r.resumeOffset),
    ("force_restart".toList, .bool r.forceRestart)]

/-- The derived `Deserialize`. The last two fields have defaults, and fields that it does not know
are skipped. -/
def ofJson (o : Object) : Option TransferRequest := do
  let requestId ← field o "request_id".toList readText none
  let senderName ← field o "sender_name".toList readText none
  let senderNodeId ← field o "sender_node_id".toList readText none
  let fileName ← field o "file_name".toList readText none
  let fileSize ← field o "file_size".toList readU64 none
  let resumeOffset ← field o "resume_offset".toList readU64 (some 0)
  let forceRestart ← field o "force_restart".toList readBool (some false)
  return ⟨requestId, senderName, senderNodeId, fileName, fileSize, resumeOffset, forceRestart⟩

/-- The request that `send_file_to_peer` makes. -/
def ofSender (senderName senderNodeId : Text) (r : Alpn.TransferRequest) : TransferRequest where
  requestId := r.requestId
  senderName := senderName
  senderNodeId := senderNodeId
  fileName := r.fileName
  fileSize := r.fileSize
  forceRestart := r.forceRestart

end TransferRequest

def responseToJson (r : TransferResponse) : Fields :=
  [("accepted".toList, .bool r.accepted), ("resume_offset".toList, .integer r.resumeOffset)]

def responseOfJson (o : Object) : Option TransferResponse := do
  let accepted ← field o "accepted".toList readBool none
  let resumeOffset ← field o "resume_offset".toList readU64 (some 0)
  return ⟨accepted, resumeOffset⟩

def maxJson : Nat := 10 * 1024 * 1024

inductive ReadError where
  | stream (detail : Text)
  | tooLarge (length : Nat)
  | json (detail : Text)
deriving DecidableEq

def ReadError.text : ReadError → Text
  | .stream detail => detail
  | .tooLarge length => "Message too large: ".toList ++ Nat.toDigits 10 length ++ " bytes".toList
  | .json detail => detail

/-- `write_json`. The length is cast to 32 bits. -/
def writeJson (o : Fields) : Bytes := Framing.octets 4 ((toVec o).length % 2 ^ 32) ++ toVec o

section Framing

-- the parser, and the texts of the errors that are not of this program
variable (S : FromSlice) (ended refused : Text)

/-- `read_json`, on a stream that comes in pieces. -/
def readJson {α : Type} (ofJson : Object → Option α) (pieces : List Bytes) :
    Except ReadError α × List Bytes :=
  match Framing.readExact 4 pieces with
  | (none, rest) => (.error (.stream ended), rest)
  | (some header, rest) =>
    if maxJson < Framing.value header then (.error (.tooLarge (Framing.value header)), rest)
    else match Framing.readExact (Framing.value header) rest with
      | (none, rest) => (.error (.stream ended), rest)
      | (some text, rest) => match (S.parse text).bind ofJson with
        | some a => (.ok a, rest)
        | none => (.error (.json refused), rest)

end Framing

/-- The bytes of an item, for the names that the sender adds to a request. -/
def itemBytes (senderName senderNodeId : Text) : Item → Bytes
  | .request r => writeJson (TransferRequest.ofSender senderName senderNodeId r).toJson
  | .response r => writeJson (responseToJson r)
  | .byte b => [b]
  | .fin => []

def wire (senderName senderNodeId : Text) (items : List Item) : Bytes :=
  items.flatMap (itemBytes senderName senderNodeId)

/-- The bytes of the file among the items. -/
def payload (items : List Item) : Bytes :=
  items.filterMap fun
    | .byte b => some b
    | _ => none

/-! ### Messages -/

theorem field_of_filter {α : Type} {o : Object} {key : Text} {v : JsonValue}
    {read : JsonValue → Option α} {missing : Option α}
    (h : o.filter (fun e => decide (e.1 = key)) = [(key, v)]) :
    field o key read missing = read v := by
  rw [field, h]

theorem readU64_natCast {n : Nat} (h : n < 2 ^ 64) : readU64 (.integer n) = some n := by
  rw [readU64, if_pos ⟨Int.natCast_nonneg n, by exact_mod_cast h⟩, Int.toNat_natCast]

theorem TransferRequest.ofJson_toJson (r : TransferRequest) (hsize : r.fileSize < 2 ^ 64)
    (hoffset : r.resumeOffset < 2 ^ 64) : ofJson (found r.toJson) = some r := by
  have h1 : field (found r.toJson) "request_id".toList readText none = some r.requestId := by
    rw [field_of_filter (v := .string r.requestId) rfl, readText]
  have h2 : field (found r.toJson) "sender_name".toList readText none = some r.senderName := by
    rw [field_of_filter (v := .string r.senderName) rfl, readText]
  have h3 : field (found r.toJson) "sender_node_id".toList readText none =
      some r.senderNodeId := by
    rw [field_of_filter (v := .string r.senderNodeId) rfl, readText]
  have h4 : field (found r.toJson) "file_name".toList readText none = some r.fileName := by
    rw [field_of_filter (v := .string r.fileName) rfl, readText]
  have h5 : field (found r.toJson) "file_size".toList readU64 none = some r.fileSize := by
    rw [field_of_filter (v := .integer r.fileSize) rfl, readU64_natCast hsize]
  have h6 : field (found r.toJson) "resume_offset".toList readU64 (some 0) =
      some r.resumeOffset := by
    rw [field_of_filter (v := .integer r.resumeOffset) rfl, readU64_natCast hoffset]
  have h7 : field (found r.toJson) "force_restart".toList readBool (some false) =
      some r.forceRestart := by
    rw [field_of_filter (v := .bool r.forceRestart) rfl, readBool]
  simp only [ofJson, h1, h2, h3, h4, h5, h6, h7]
  rfl

theorem responseOfJson_toJson (r : TransferResponse) (hoffset : r.resumeOffset < 2 ^ 64) :
    responseOfJson (found (responseToJson r)) = some r := by
  have h1 : field (found (responseToJson r)) "accepted".toList readBool none =
      some r.accepted := by
    rw [field_of_filter (v := .bool r.accepted) rfl, readBool]
  have h2 : field (found (responseToJson r)) "resume_offset".toList readU64 (some 0) =
      some r.resumeOffset := by
    rw [field_of_filter (v := .integer r.resumeOffset) rfl, readU64_natCast hoffset]
  simp only [responseOfJson, h1, h2]
  rfl

/-- A response is short. -/
theorem length_responseToJson (r : TransferResponse) (hoffset : r.resumeOffset < 2 ^ 64) :
    (toVec (responseToJson r)).length ≤ maxJson := by
  have hdigits : (Nat.toDigits 10 r.resumeOffset).length ≤ 20 :=
    (Nat.length_toDigits_le_iff (by decide) (by decide)).mpr (lt_trans hoffset (by decide))
  have hbool : (Scalar.text (.bool r.accepted)).length ≤ 5 := by cases r.accepted <;> decide
  have htext : (objectText (responseToJson r)).length ≤ 100 := by
    have hfirst : (quote "accepted".toList).length = 10 := by decide
    have hsecond : (quote "resume_offset".toList).length = 15 := by decide
    simp only [responseToJson, objectText, inside, entry, List.length_cons, List.length_append,
      List.length_nil, hfirst, hsecond, Scalar.text] at hbool ⊢
    omega
  have hbytes := length_utf8_le (objectText (responseToJson r))
  rw [toVec]
  exact le_trans hbytes (le_trans (Nat.mul_le_mul_left 4 htext) (by decide))

section Read

variable {S : FromSlice} {ended refused : Text} {α : Type} {ofJson : Object → Option α} {o : Fields}
  {a : α} {rest : Bytes} {pieces : List Bytes}

/-- A message is read, and not a byte more. -/
theorem readJson_writeJson (hof : ofJson (found o) = some a) (hsmall : (toVec o).length ≤ maxJson)
    (h : Framing.Delivers pieces (writeJson o ++ rest)) :
    ∃ pieces', readJson S ended refused ofJson pieces = (.ok a, pieces') ∧
      Framing.Delivers pieces' rest := by
  have hlt : (toVec o).length < 2 ^ 32 := lt_of_le_of_lt hsmall (by decide)
  rw [writeJson, List.append_assoc, Nat.mod_eq_of_lt hlt] at h
  obtain ⟨mid, hhead, hmid⟩ := Framing.readExact_append h
  obtain ⟨last, htext, hlast⟩ := Framing.readExact_append hmid
  rw [Framing.length_octets] at hhead
  refine ⟨last, ?_, hlast⟩
  rw [readJson, hhead]
  dsimp only
  rw [Framing.value_octets hlt, if_neg (Nat.not_lt.mpr hsmall), htext]
  dsimp only
  rw [S.parse_toVec, Option.bind_some, hof]

/-- A message that is too long fails, also where its length has lost its first bits. -/
theorem readJson_large (hlarge : maxJson < (toVec o).length)
    (h : Framing.Delivers pieces (writeJson o ++ rest)) :
    ∃ e, (readJson S ended refused ofJson pieces).1 = .error e := by
  rw [writeJson, List.append_assoc] at h
  obtain ⟨mid, hhead, hmid⟩ := Framing.readExact_append h
  have hvalue : Framing.value (Framing.octets 4 ((toVec o).length % 2 ^ 32)) =
      (toVec o).length % 2 ^ 32 := Framing.value_octets (Nat.mod_lt _ (by decide))
  rw [Framing.length_octets] at hhead
  rw [readJson, hhead]
  dsimp only
  rw [hvalue]
  by_cases hheader : maxJson < (toVec o).length % 2 ^ 32
  · exact ⟨_, by rw [if_pos hheader]⟩
  · have hcut : (toVec o).length % 2 ^ 32 < (toVec o).length := by omega
    rw [if_neg hheader]
    have hsplit : toVec o ++ rest = (toVec o).take ((toVec o).length % 2 ^ 32) ++
        ((toVec o).drop ((toVec o).length % 2 ^ 32) ++ rest) := by
      rw [← List.append_assoc, List.take_append_drop]
    have hlength : ((toVec o).take ((toVec o).length % 2 ^ 32)).length =
        (toVec o).length % 2 ^ 32 := by
      rw [List.length_take, Nat.min_eq_left hcut.le]
    rw [hsplit] at hmid
    obtain ⟨last, htext, -⟩ := Framing.readExact_append hmid
    rw [hlength] at htext
    have hnone : S.parse ((toVec o).take ((toVec o).length % 2 ^ 32)) = none := by
      apply S.parse_cut o _ (List.take_prefix _ _)
      intro he
      rw [he] at hlength
      omega
    rw [htext]
    dsimp only
    rw [hnone]
    exact ⟨_, rfl⟩

end Read

/-! ### Runs -/

section Run

variable {C : Primitives} {request : Alpn.TransferRequest} {disk : Disk} {outputDir : Text}
  {fs : Files} (senderName senderNodeId : Text)

theorem payload_map_byte (data : Bytes) : payload (data.map .byte) = data := by
  induction data with
  | nil => rfl
  | cons b data ih =>
    rw [payload] at ih ⊢
    rw [List.map_cons, List.filterMap_cons]
    dsimp only
    rw [ih]

theorem payload_put (asked : Bool) (data : Bytes) (ended : Bool) :
    payload (Sender.put request asked data ended) = data := by
  have hdata := payload_map_byte data
  rw [payload] at hdata ⊢
  rw [Sender.put, List.filterMap_append, List.filterMap_append, hdata]
  cases asked <;> cases ended <;> simp

theorem wire_put (data : Bytes) (ended : Bool) :
    wire senderName senderNodeId (Sender.put request true data ended) =
      writeJson (TransferRequest.ofSender senderName senderNodeId request).toJson ++ data := by
  have hdata : (data.map Item.byte).flatMap (itemBytes senderName senderNodeId) = data := by
    induction data with
    | nil => rfl
    | cons b data ih =>
      rw [List.map_cons, List.flatMap_cons, ih]
      rfl
  have hend : (if ended then [Item.fin] else []).flatMap (itemBytes senderName senderNodeId) =
      [] := by cases ended <;> rfl
  rw [wire, Sender.put, List.flatMap_append, List.flatMap_append, hdata, hend, List.append_nil,
    if_pos rfl, List.flatMap_singleton]
  rfl

/-- The receiver answers at most once. -/
theorem receiver_answers {ok : Receiver.State C → Receiver.Act → Prop} {i o : List Item}
    {s : Receiver.State C} (h : (receiver C outputDir).Trace ok { files := fs } i o s) :
    o = [] ∨ ∃ r, o = [.response r] := by
  have hboth := h.invariant
    (I := fun i o s => (∃ data asked, Receiver.Takes data asked i o s) ∧
      (o = [] ∨ ∃ r, o = [.response r]))
    ⟨⟨[], false, Receiver.Takes.start fs⟩, .inl rfl⟩ (by
      rintro i o s a t ⟨⟨data, asked, ht⟩, ho⟩ - hs
      refine ⟨⟨_, _, ht.step hs⟩, ?_⟩
      have hdeciding : s.pc.deciding → o = [] := fun hd => (ht.deciding hd).2.2.2
      cases a with
      | rejectRespond =>
        simp only [receiver, Receiver.step, guarded_eq_some] at hs
        right
        exact ⟨_, by rw [hdeciding (by rw [hs.1]; rfl)]; rfl⟩
      | respond =>
        simp only [receiver, Receiver.step, guarded_eq_some] at hs
        right
        exact ⟨_, by rw [hdeciding (by rw [hs.1]; rfl)]; rfl⟩
      | _ =>
        show o ++ [] = [] ∨ ∃ r, o ++ [] = [.response r]
        rw [List.append_nil]
        exact ho)
  exact hboth.2

/-- **Both sides read what the other has put.** In every state of the two functions, and in whatever
pieces the bytes arrive, the receiver reads the request with all of its fields, unless its text is
longer than ten megabytes; then it fails. Behind the request it finds the bytes of the file, which
begin at the offset that the sender was told. The sender reads the answer, and nothing follows. -/
theorem read_transfer {ok : Net (Sender.State C) (Receiver.State C) Item →
      Sender.Act ⊕ Receiver.Act → Prop} {n : Net (Sender.State C) (Receiver.State C) Item}
    (S : FromSlice) (ended refused : Text) (hsize : request.fileSize < 2 ^ 64)
    (h : (transfer C request disk outputDir).Reach ok (opening C fs) n) :
    ∃ iL oL iR oR,
      (sender C request disk).Trace (fun _ _ => True) {} iL oL n.left ∧
      (receiver C outputDir).Trace (fun _ _ => True) { files := fs } iR oR n.right ∧
      oL = iR ++ n.toRight ∧ oR = iL ++ n.toLeft ∧
      (∀ source, disk = Disk.ofFile source → payload oL <+: source.drop n.left.startOffset) ∧
      (.request request ∈ oL →
        ∀ pieces, Framing.Delivers pieces (wire senderName senderNodeId oL) →
          ((toVec (TransferRequest.ofSender senderName senderNodeId request).toJson).length ≤
              maxJson →
            ∃ rest, readJson S ended refused TransferRequest.ofJson pieces =
                (.ok (TransferRequest.ofSender senderName senderNodeId request), rest) ∧
              Framing.Delivers rest (payload oL)) ∧
          (maxJson <
              (toVec (TransferRequest.ofSender senderName senderNodeId request).toJson).length →
            ∃ e, (readJson S ended refused TransferRequest.ofJson pieces).1 = .error e)) ∧
      ∀ r, .response r ∈ oR → r.resumeOffset < 2 ^ 64 →
        ∀ pieces, Framing.Delivers pieces (wire senderName senderNodeId oR) →
          readJson S ended refused responseOfJson pieces = (.ok r, []) := by
  obtain ⟨iL, oL, iR, oR, hl, hr, hout, hin⟩ :=
    Party.link_traces (fun _ _ => True) (fun _ _ => True) (fun _ _ _ => trivial)
      (fun _ _ _ => trivial) h
  obtain ⟨data, asked, hst⟩ := sender_streams hl
  refine ⟨iL, oL, iR, oR, hl, hr, hout, hin, ?_, ?_, ?_⟩
  · intro source hdisk
    rw [hst.out, payload_put, ← hst.content source hdisk, List.append_assoc]
    exact List.prefix_append _ _
  · intro hasked pieces hpieces
    have hput := hst.out
    obtain rfl : asked = true := by
      cases asked with
      | true => rfl
      | false =>
        rw [hput, Sender.put] at hasked
        cases hfin : n.left.finished <;> simp [hfin] at hasked
    rw [hput, wire_put] at hpieces
    rw [hput, payload_put]
    constructor
    · intro hsmall
      have hof := TransferRequest.ofJson_toJson
        (TransferRequest.ofSender senderName senderNodeId request) hsize (show 0 < 2 ^ 64 by decide)
      exact readJson_writeJson hof hsmall hpieces
    · intro hlarge
      exact readJson_large hlarge hpieces
  · intro r hmem hoffset pieces hpieces
    rcases receiver_answers hr with ho | ⟨r', ho⟩
    · rw [ho] at hmem
      cases hmem
    · rw [ho, List.mem_singleton, Item.response.injEq] at hmem
      subst hmem
      rw [ho, wire, List.flatMap_cons, List.flatMap_nil, itemBytes] at hpieces
      obtain ⟨rest, hread, hrest⟩ := readJson_writeJson (responseOfJson_toJson r hoffset)
        (length_responseToJson r hoffset) hpieces
      rw [hread, hrest.eq_nil]

end Run

theorem read_transfer_whole : ∃ (n : Net (Sender.State .plain) (Receiver.State .plain) Item)
    (oL : List Item), n.right.event = some (.complete samplePath [1, 2]) ∧
      .request sampleRequest ∈ oL ∧
      ∀ pieces, Framing.Delivers pieces (wire ['s'] ['i'] oL) → ∃ rest,
        readJson .least [] [] TransferRequest.ofJson pieces =
          (.ok (TransferRequest.ofSender ['s'] ['i'] sampleRequest), rest) ∧
        Framing.Delivers rest (payload oL) := by
  obtain ⟨n, hn, he⟩ := Option.map_eq_some_iff.mp
    (show ((transfer .plain sampleRequest (Disk.ofFile [1, 2]) ['/', 'd']).runUnder undisturbed
      (opening .plain noFiles) (runWhole sampleRequest false [1, 2])).map
        (fun n => (n.right.event, n.right.request, n.right.recvResult)) =
      some (some (.complete samplePath [1, 2]), sampleRequest, .ended) from rfl)
  simp only [Prod.mk.injEq] at he
  obtain ⟨iL, oL, iR, oR, -, hr, hout, -, -, hread, -⟩ :=
    read_transfer ['s'] ['i'] .least [] [] (by decide) (Machine.reach_of_runUnder _ hn)
  obtain ⟨data, asked, ht, -, -⟩ := receiver_stores hr
  obtain ⟨rfl, -⟩ := ht.streaming (.inr he.2.2)
  have hmem : .request sampleRequest ∈ oL := by
    rw [hout, ht.inp, he.2.1, Sender.put]
    simp
  exact ⟨n, oL, he.1, hmem, fun pieces hp => (hread hmem pieces hp).1 (by decide +kernel)⟩

end P2PTransfer.Alpn.Wire
