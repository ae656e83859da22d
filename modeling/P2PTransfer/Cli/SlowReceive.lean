import P2PTransfer.Cli.Delivery
import P2PTransfer.Transfer.Chunks

/-!
# The slow receiver of the command line

`cmd_slow_receive` takes the chunks one after the other. It reads a frame, checks its number, writes
the chunk and acknowledges it before it reads the next one, and in the end it hashes the file. It
neither cuts the file nor skips what a sender that resumes does not send.

## Main definitions

- `SlowReceive.State`, `SlowReceive.Act`, `slowReceiver` — the loop as a party
- `slowAdmission` — how the function answers an offer

## Main results

- `slow_receive_ends` — every run ends, and with the source delivered exactly when it can be
-/

namespace P2PTransfer.Cli

open Transition Party Machine64

variable {C : Primitives}

namespace SlowReceive

inductive Error where
  | read (detail : Text)
  | peer
  | expectedChunk (tag : UInt8)
  | malformed
  | index (expected received : Nat)
  | decrypt
  | decompress (detail : Text)
  | write (detail : Text)
  | reply (detail : Text)
  | readBack (detail : Text)
  | mismatch
deriving DecidableEq

def Error.text : Error → Text
  | .read detail => detail
  | .peer => "Peer sent error".toList
  | .expectedChunk tag => "Expected CHUNK, got tag=".toList ++ Nat.toDigits 10 tag.toNat
  | .malformed => "Malformed chunk".toList
  | .index expected received => "Chunk index mismatch: expected ".toList ++
      Nat.toDigits 10 expected ++ ", got ".toList ++ Nat.toDigits 10 received
  | .decrypt => "Chunk decryption failed (bad tag or corrupted)".toList
  | .decompress detail => detail
  | .write detail => detail
  | .reply detail => detail
  | .readBack detail => detail
  | .mismatch => "Checksum mismatch".toList

inductive Pc where
  | read
  | write (data : Bytes)
  | ack
  | verify
  | answer (hashMatch : Bool)
  | returned
deriving DecidableEq

structure State (C : Primitives) where
  key : C.Key
  metadata : TransferMetadata C
  file : Option Bytes
  pc : Pc
  chunkIndex : Nat := 0
  result : Option (Except Error Unit) := none

def State.next (metadata : TransferMetadata C) (chunkIndex : Nat) : Pc :=
  if chunkIndex < metadata.totalChunks then .read else .verify

theorem State.next_cases (metadata : TransferMetadata C) (chunkIndex : Nat) :
    (State.next metadata chunkIndex = .read ∧ chunkIndex < metadata.totalChunks) ∨
      (State.next metadata chunkIndex = .verify ∧ metadata.totalChunks ≤ chunkIndex) := by
  by_cases h : chunkIndex < metadata.totalChunks
  · exact .inl ⟨if_pos h, h⟩
  · exact .inr ⟨if_neg h, Nat.not_lt.mp h⟩

/-- The loop after the reply, over what the output file holds. -/
def State.start (key : C.Key) (metadata : TransferMetadata C) (existing : Option Bytes) :
    State C where
  key := key
  metadata := metadata
  file := existing
  pc := State.next metadata 0

inductive Act (C : Primitives) where
  | read (f : Frame C)
  | hangup
  | readError (detail : Text)
  | write
  | writeFailed (detail : Text)
  | writeError (n : Nat) (detail : Text)
  | ack
  | ackError (detail : Text)
  | verify
  | noFile (detail : Text)
  | verifyError (detail : Text)
  | answer
  | answerError (detail : Text)

/-- The actions of a run without faults. -/
def Act.clean : Act C → Bool
  | .readError _ | .writeError _ _ | .ackError _ | .verifyError _ | .answerError _ => false
  | _ => true

/-- What the loop makes of a frame. -/
def State.take (s : State C) (f : Frame C) : Except Error Bytes :=
  if f.oversized then .error (.read "Oversized message".toList)
  else if f.tag = tagError then .error .peer
  else if f.tag ≠ tagChunk then .error (.expectedChunk f.tag)
  else match f.payload with
    | .chunk recvIndex compressed data =>
      if recvIndex ≠ s.chunkIndex then .error (.index s.chunkIndex recvIndex)
      else match C.decrypt s.key (buildNonce s.metadata.noncePrefix s.chunkIndex) data with
        | none => .error .decrypt
        | some decrypted =>
          if compressed then match C.decompress decrypted with
            | none => .error (.decompress [])
            | some chunk => .ok chunk
          else .ok decrypted
    | _ => .error .malformed

def State.fail (s : State C) (e : Error) : State C :=
  { s with pc := .returned, result := some (.error e) }

/-- The file after a chunk, in a build with or without overflow checks. -/
def State.written (checks : Bool) (s : State C) (data : Bytes) : Option Bytes :=
  processReceivedChunk checks s.file s.chunkIndex s.metadata.chunkSize data

def step (checks : Bool) (s : State C) : Act C → Option (State C)
  | .read f => guarded (s.pc = .read) (match s.take f with
      | .ok data => { s with pc := .write data }
      | .error e => s.fail e)
  | .hangup => guarded (s.pc = .read) (s.fail (.read "Failed to read message length".toList))
  | .readError detail => guarded (s.pc = .read) (s.fail (.read detail))
  | .write => match s.pc with
    | .write data => (s.written checks data).map fun file =>
        { s with pc := .ack, file := some file }
    | _ => none
  -- a position that the arithmetic or the system refuses
  | .writeFailed detail => match s.pc with
    | .write data => guarded (s.written checks data = none) (s.fail (.write detail))
    | _ => none
  | .writeError n detail => match s.pc with
    | .write data => some (State.fail { s with file := (s.written checks (data.take n)).or s.file }
        (.write detail))
    | _ => none
  | .ack => guarded (s.pc = .ack)
      { s with pc := State.next s.metadata (s.chunkIndex + 1), chunkIndex := s.chunkIndex + 1 }
  | .ackError detail => guarded (s.pc = .ack) (s.fail (.reply detail))
  | .verify => match s.pc, s.file with
    | .verify, some file =>
      some { s with pc := .answer (decide (C.blake3 file = s.metadata.checksum)) }
    | _, _ => none
  | .noFile detail => guarded (s.pc = .verify ∧ s.file = none) (s.fail (.readBack detail))
  | .verifyError detail => guarded (s.pc = .verify) (s.fail (.readBack detail))
  | .answer => match s.pc with
    | .answer hashMatch => some { s with
        pc := .returned, result := some (if hashMatch then .ok () else .error .mismatch) }
    | _ => none
  | .answerError detail => match s.pc with
    | .answer _ => some (s.fail (.reply detail))
    | _ => none

end SlowReceive

/-- `cmd_slow_receive` after its reply. -/
def slowReceiver (C : Primitives) (checks : Bool) :
    Party (SlowReceive.State C) (SlowReceive.Act C) (Frame C) where
  step := SlowReceive.step checks
  recvs
    | .read f => [f]
    | _ => []
  sends s
    | .ack => [Receiver.ackFrame s.chunkIndex]
    | .answer => match s.pc with
      | .answer true => [⟨tagComplete, .digest s.metadata.checksum⟩]
      | _ => [Frame.ofText tagError "Checksum mismatch".toList]
    | _ => []
  hangup
    | .hangup => true
    | _ => false
  closed s := decide (s.pc = .returned)

/-- `cmd_slow_receive` up to its reply. It names what it has expected whatever has come. -/
def slowAdmission (C : Primitives) (secret : C.Secret) (fs : Files) (output : Text) :
    Admission C (SlowReceive.State C) where
  secret := secret
  asks := false
  reply _ := Frame.ofText tagMetadata "ACCEPT".toList
  start key m := SlowReceive.State.start key m (fs (outputPath output m.fileName))
  complaint _ expected := [Frame.ofText tagError expected]

namespace SlowReceive

/-! ### The frames of chunks -/

/-- A frame that the loop goes on with carries the number that it waits for. -/
theorem chunk_of_take {s : State C} {f : Frame C} {data : Bytes} (h : s.take f = .ok data) :
    f.oversized = false ∧ ∃ compressed encrypted,
      f.payload = .chunk s.chunkIndex compressed encrypted := by
  unfold State.take at h
  split_ifs at h with hsize herror htag
  split at h
  · next recvIndex compressed encrypted hpayload =>
    by_cases hindex : recvIndex = s.chunkIndex
    · exact ⟨Bool.eq_false_iff.mpr hsize, compressed, encrypted, hindex ▸ hpayload⟩
    · rw [if_pos hindex] at h
      cases h
  · cases h

/-- The chunk that the loop waits for. -/
theorem take_chunkFrame {x : Job C} {s : State C} (hkey : s.key = x.key)
    (hmeta : s.metadata = x.metadata) (hsmall : s.chunkIndex < 2 ^ 32)
    (hfits : (x.chunkFrame s.chunkIndex).oversized = false) :
    s.take (x.chunkFrame s.chunkIndex) =
      .ok (prepareChunk x.source x.metadata s.chunkIndex) := by
  have htag := tag_chunkFrame x s.chunkIndex
  have hnoError : ¬ (x.chunkFrame s.chunkIndex).tag = tagError := by
    rw [htag]
    decide
  rw [State.take, if_neg (by simp [hfits]), if_neg hnoError, if_neg (not_not.mpr htag), hkey, hmeta]
  unfold Job.chunkFrame Job.frame
  cases hc : x.compressed (prepareChunk x.source x.metadata s.chunkIndex) with
  | none =>
    simp only [Frame.ofChunk, Nat.mod_eq_of_lt hsmall, ne_eq, not_true_eq_false, if_false,
      C.decrypt_encrypt, Bool.false_eq_true]
  | some c =>
    have hcomp : C.compress x.level (prepareChunk x.source x.metadata s.chunkIndex) = some c := by
      unfold Job.compressed at hc
      split at hc
      · exact hc
      · cases hc
    simp only [Frame.ofChunk, Nat.mod_eq_of_lt hsmall, ne_eq, not_true_eq_false, if_false,
      C.decrypt_encrypt, if_true, C.decompress_compress _ _ _ hcomp]

theorem index_of_payload {x : Job C} {j k : Nat} {compressed : Bool} {encrypted : Bytes}
    (h : (x.chunkFrame j).payload = .chunk k compressed encrypted) : k = j % 2 ^ 32 := by
  unfold Job.chunkFrame Job.frame at h
  split at h <;>
  · rw [Frame.ofChunk, Payload.chunk.injEq] at h
    exact h.1.symm

/-! ### A transfer that can be delivered -/

def Pc.looping : Pc → Bool
  | .read | .write _ | .ack => true
  | _ => false

/-- How many frames have been taken, and how many chunks written. -/
def State.taken (s : State C) : Nat :=
  match s.pc with
  | .write _ | .ack => s.chunkIndex + 1
  | _ => s.chunkIndex

def State.done (s : State C) : Nat :=
  match s.pc with
  | .ack => s.chunkIndex + 1
  | _ => s.chunkIndex

/-- The loop is as far as its history says, and everything before is right. -/
structure Progress (x : Job C) (i o : List (Frame C)) (s : State C) : Prop where
  key : s.key = x.key
  metadata : s.metadata = x.metadata
  inp : i = (List.range s.taken).map x.chunkFrame
  out : o = (List.range s.chunkIndex).map Receiver.ackFrame ++
    if s.pc = .returned then [⟨tagComplete, .digest x.metadata.checksum⟩] else []
  writing : ∀ data, s.pc = .write data → data = prepareChunk x.source x.metadata s.chunkIndex
  looping : s.pc.looping → s.chunkIndex < x.metadata.totalChunks
  late : s.pc.looping = false → s.chunkIndex = x.metadata.totalChunks
  file : PartOf x.source x.metadata.chunkSize (· < s.done) (s.file.getD [])
  created : 0 < s.done → s.file ≠ none
  answer : ∀ hashMatch, s.pc = .answer hashMatch → hashMatch = true
  returned : s.pc = .returned → s.result = some (.ok ())

/-- The transfer is feasible, and the file that is there is not longer than the source. -/
structure Feasible (x : Job C) (existing : Option Bytes) : Prop extends x.Feasible where
  room : (existing.getD []).length ≤ x.source.length

section Progress

variable {x : Job C} {existing : Option Bytes} {checks : Bool} {i o : List (Frame C)} {s t : State C}
  {b : Act C}

theorem Progress.start (h : Feasible x existing) :
    Progress x [] [] (State.start x.key x.metadata existing) := by
  have hpos := h.partition.totalChunks_pos
  have hpc : (State.start x.key x.metadata existing).pc = .read := if_pos hpos
  constructor
  · rfl
  · rfl
  · rw [State.taken, hpc]
    rfl
  · rw [hpc]
    rfl
  · intro data hp
    rw [hpc] at hp
    cases hp
  · exact fun _ => hpos
  · intro hp
    rw [hpc] at hp
    cases hp
  · refine ⟨h.room, fun p hp hdone => ?_⟩
    rw [State.done, hpc] at hdone
    exact absurd hdone (Nat.not_lt_zero _)
  · intro hdone
    rw [State.done, hpc] at hdone
    exact absurd hdone (Nat.lt_irrefl 0)
  · intro hashMatch hp
    rw [hpc] at hp
    cases hp
  · intro hp
    rw [hpc] at hp
    cases hp

/-- The chunk that is held can be written at its place. -/
theorem Progress.written (h : Progress x i o s) (hpart : Partition x.source x.metadata)
    (hlength : x.source.length < 2 ^ 63) {data : Bytes} (hpc : s.pc = .write data) :
    ∃ file, s.written checks data = some file ∧
      PartOf x.source x.metadata.chunkSize (· < s.chunkIndex + 1) file := by
  have hlt := h.looping (by rw [hpc]; rfl)
  have hle := hpart.mul_le hlt
  have hdone : s.done = s.chunkIndex := by rw [State.done, hpc]
  have hnext := h.file.writeAt hpart.pos s.chunkIndex
  rw [hdone] at hnext
  refine ⟨writeAt (s.file.getD []) (s.chunkIndex * x.metadata.chunkSize) data, ?_, ?_⟩
  · rw [State.written, h.metadata]
    exact processReceivedChunk_eq_some.mpr ⟨_, by omega, mulU64_of_lt (by omega), rfl⟩
  · rw [h.writing data hpc, hpart.prepareChunk_eq]
    refine ⟨hnext.length, fun p hp hdone => hnext.bytes p hp ?_⟩
    exact (Nat.lt_succ_iff_lt_or_eq.mp hdone)

/-- With all chunks written the file is the source. -/
theorem Progress.file_eq (h : Progress x i o s) (hpart : Partition x.source x.metadata)
    (hdone : s.done = x.metadata.totalChunks) : s.file = some x.source := by
  have hsource := h.file.eq_source fun p hp => hdone ▸ hpart.div_lt hp
  have hcreated := h.created (hdone ▸ hpart.totalChunks_pos)
  obtain ⟨file, hfile⟩ := Option.ne_none_iff_exists'.mp hcreated
  rw [hfile, Option.getD_some] at hsource
  rw [hfile, hsource]

/-- In a run without faults against a sender of the chunks the loop goes on. -/
theorem Progress.step (h : Progress x i o s) (hf : Feasible x existing)
    (hsum : x.metadata.checksum = C.blake3 x.source) (hlength : x.source.length < 2 ^ 63)
    (hb : b.clean) (hin : ∀ f ∈ (slowReceiver C checks).recvs b, f = x.chunkFrame i.length)
    (hhang : ¬ (slowReceiver C checks).hangup b) (hs : SlowReceive.step checks s b = some t) :
    Progress x (i ++ (slowReceiver C checks).recvs b) (o ++ (slowReceiver C checks).sends s b) t := by
  cases b with
  | readError detail => cases hb
  | writeError n detail => cases hb
  | ackError detail => cases hb
  | verifyError detail => cases hb
  | answerError detail => cases hb
  | hangup => exact absurd rfl hhang
  | read f =>
    obtain ⟨hpc, rfl⟩ := guarded_eq_some.mp hs
    have hlt := h.looping (by rw [hpc]; rfl)
    have hlen : i.length = s.chunkIndex := by
      rw [h.inp, List.length_map, List.length_range, State.taken, hpc]
    obtain rfl : f = x.chunkFrame s.chunkIndex := hlen ▸ hin f (List.mem_singleton_self f)
    have htake := take_chunkFrame h.key h.metadata (lt_of_lt_of_le hlt hf.small)
      (hf.fits _ (by rw [hf.first]; exact Nat.zero_le _) hlt)
    have hdone : s.done = s.chunkIndex := by rw [State.done, hpc]
    have hinp := h.inp
    have hout := h.out
    rw [State.taken, hpc] at hinp
    rw [hpc, if_neg (by simp)] at hout
    simp only [htake]
    refine ⟨h.key, h.metadata, ?_, ?_, ?_, fun _ => hlt, ?_, hdone ▸ h.file, hdone ▸ h.created, ?_, ?_⟩
    · show i ++ [x.chunkFrame s.chunkIndex] = (List.range (s.chunkIndex + 1)).map x.chunkFrame
      rw [hinp, List.range_succ, List.map_append]
      rfl
    · rw [if_neg (by simp)]
      exact (List.append_nil o).trans hout
    · exact fun data hp => (Pc.write.inj hp).symm
    · simp [Pc.looping]
    · simp
    · simp
  | write =>
    simp only [SlowReceive.step] at hs
    split at hs
    · next data hpc =>
      obtain ⟨file, hwritten, hpart⟩ := h.written hf.partition hlength hpc
      rw [hwritten, Option.map_some] at hs
      obtain rfl := Option.some.inj hs
      have hinp := h.inp
      have hout := h.out
      rw [State.taken, hpc] at hinp
      rw [hpc, if_neg (by simp)] at hout
      refine ⟨h.key, h.metadata, (List.append_nil i).trans hinp, ?_, ?_, ?_, ?_, hpart, ?_, ?_, ?_⟩
      · rw [if_neg (by simp)]
        exact (List.append_nil o).trans hout
      · simp
      · exact fun _ => h.looping (by rw [hpc]; rfl)
      · simp [Pc.looping]
      · exact fun _ => Option.some_ne_none file
      · simp
      · simp
    · cases hs
  | writeFailed detail =>
    simp only [SlowReceive.step] at hs
    split at hs
    · next data hpc =>
      obtain ⟨file, hwritten, -⟩ := h.written hf.partition hlength hpc
      have hnone := (guarded_eq_some.mp hs).1
      rw [hwritten] at hnone
      cases hnone
    · cases hs
  | ack =>
    obtain ⟨hpc, rfl⟩ := guarded_eq_some.mp hs
    have hlt := h.looping (by rw [hpc]; rfl)
    have hinp := h.inp
    have hout := h.out
    have hfile := h.file
    have hcreated := h.created
    rw [State.taken, hpc] at hinp
    rw [hpc, if_neg (by simp), List.append_nil] at hout
    rw [State.done, hpc] at hfile hcreated
    have hacked : o ++ [Receiver.ackFrame s.chunkIndex] =
        (List.range (s.chunkIndex + 1)).map Receiver.ackFrame := by
      rw [hout, List.range_succ, List.map_append]
      rfl
    rcases State.next_cases s.metadata (s.chunkIndex + 1) with ⟨hnext, hmore⟩ | ⟨hnext, hall⟩
    · rw [hnext]
      refine ⟨h.key, h.metadata, (List.append_nil i).trans hinp, ?_, by simp, ?_, ?_, hfile,
        hcreated, by simp, by simp⟩
      · rw [if_neg (by simp), List.append_nil]
        exact hacked
      · exact fun _ => h.metadata ▸ hmore
      · simp [Pc.looping]
    · rw [hnext]
      refine ⟨h.key, h.metadata, (List.append_nil i).trans hinp, ?_, by simp, ?_, ?_, hfile,
        hcreated, by simp, by simp⟩
      · rw [if_neg (by simp), List.append_nil]
        exact hacked
      · simp [Pc.looping]
      · intro _
        rw [h.metadata] at hall
        exact Nat.le_antisymm hlt hall
  | verify =>
    simp only [SlowReceive.step] at hs
    split at hs
    · next file hpc hfile =>
      obtain rfl := Option.some.inj hs
      have hlate := h.late (by rw [hpc]; rfl)
      have hinp := h.inp
      have hout := h.out
      have hdone : s.done = s.chunkIndex := by rw [State.done, hpc]
      rw [State.taken, hpc] at hinp
      rw [hpc, if_neg (by simp)] at hout
      have hsource := h.file_eq hf.partition (hdone.trans hlate)
      rw [hfile] at hsource
      obtain rfl := Option.some.inj hsource
      have hmatch : decide (C.blake3 x.source = s.metadata.checksum) = true := by
        rw [h.metadata, hsum, decide_eq_true_eq]
      rw [hmatch]
      refine ⟨h.key, h.metadata, (List.append_nil i).trans hinp, ?_, by simp, ?_, fun _ => hlate,
        hdone ▸ h.file, hdone ▸ h.created, by simp, by simp⟩
      · rw [if_neg (by simp)]
        exact (List.append_nil o).trans hout
      · simp [Pc.looping]
    · cases hs
  | noFile detail =>
    obtain ⟨⟨hpc, hnone⟩, -⟩ := guarded_eq_some.mp hs
    have hdone : s.done = x.metadata.totalChunks := by
      rw [State.done, hpc]
      exact h.late (by rw [hpc]; rfl)
    rw [h.file_eq hf.partition hdone] at hnone
    cases hnone
  | answer =>
    simp only [SlowReceive.step] at hs
    split at hs
    · next hashMatch hpc =>
      obtain rfl := Option.some.inj hs
      obtain rfl := h.answer hashMatch hpc
      have hlate := h.late (by rw [hpc]; rfl)
      have hinp := h.inp
      have hout := h.out
      have hdone : s.done = s.chunkIndex := by rw [State.done, hpc]
      rw [State.taken, hpc] at hinp
      rw [hpc, if_neg (by simp), List.append_nil] at hout
      refine ⟨h.key, h.metadata, (List.append_nil i).trans hinp, ?_, by simp, ?_, fun _ => hlate,
        hdone ▸ h.file, hdone ▸ h.created, by simp, fun _ => rfl⟩
      · have hsends : (slowReceiver C checks).sends s .answer =
            [⟨tagComplete, .digest s.metadata.checksum⟩] := by
          simp only [slowReceiver, hpc]
        rw [hsends, hout, h.metadata]
        exact congrArg _ (if_pos rfl).symm
      · simp [Pc.looping]
    · cases hs

end Progress

/-! ### Runs -/

/-- An upper bound on what the loop has still to do with what it has taken. -/
def Pc.rank : Pc → Nat
  | .read => 1
  | .write _ => 10
  | .ack => 9
  | .verify => 5
  | .answer _ => 4
  | .returned => 0

theorem rank_lower {checks : Bool} {s t : State C} {b : Act C} (hb : b.clean)
    (hs : SlowReceive.step checks s b = some t) :
    t.pc.rank + weight Frame.weight ((slowReceiver C checks).sends s b) <
      s.pc.rank + weight Frame.weight ((slowReceiver C checks).recvs b) := by
  cases b with
  | readError detail => cases hb
  | writeError n detail => cases hb
  | ackError detail => cases hb
  | verifyError detail => cases hb
  | answerError detail => cases hb
  | read f =>
    obtain ⟨hpc, rfl⟩ := guarded_eq_some.mp hs
    have hweight : weight Frame.weight ((slowReceiver C checks).recvs (.read f)) = f.weight := by
      simp [slowReceiver]
    rw [hweight, hpc]
    cases htake : s.take f with
    | error e => exact Nat.lt_of_lt_of_le (Nat.zero_lt_one) (Nat.le_add_right 1 _)
    | ok data =>
      obtain ⟨-, compressed, encrypted, hpayload⟩ := chunk_of_take htake
      have hchunk : f.weight = 20 := by rw [Frame.weight, hpayload]
      rw [hchunk]
      exact show 10 + 0 < 1 + 20 by decide
  | hangup =>
    obtain ⟨hpc, rfl⟩ := guarded_eq_some.mp hs
    rw [hpc]
    exact show 0 + 0 < 1 + 0 by decide
  | write =>
    simp only [SlowReceive.step] at hs
    split at hs
    · next data hpc =>
      obtain ⟨file, -, rfl⟩ := Option.map_eq_some_iff.mp hs
      rw [hpc]
      exact Nat.lt_succ_self 9
    · cases hs
  | writeFailed detail =>
    simp only [SlowReceive.step] at hs
    split at hs
    · next data hpc =>
      obtain ⟨-, rfl⟩ := guarded_eq_some.mp hs
      rw [hpc]
      exact Nat.zero_lt_succ 9
    · cases hs
  | ack =>
    obtain ⟨hpc, rfl⟩ := guarded_eq_some.mp hs
    rw [hpc]
    rcases State.next_cases s.metadata (s.chunkIndex + 1) with ⟨hnext, -⟩ | ⟨hnext, -⟩
    · rw [hnext]
      exact show 1 + 3 < 9 by decide
    · rw [hnext]
      exact show 5 + 3 < 9 by decide
  | verify =>
    simp only [SlowReceive.step] at hs
    split at hs
    · next file hpc hfile =>
      obtain rfl := Option.some.inj hs
      rw [hpc]
      exact Nat.lt_succ_self 4
    · cases hs
  | noFile detail =>
    obtain ⟨⟨hpc, -⟩, rfl⟩ := guarded_eq_some.mp hs
    rw [hpc]
    exact Nat.zero_lt_succ 4
  | answer =>
    simp only [SlowReceive.step] at hs
    split at hs
    · next hashMatch hpc =>
      obtain rfl := Option.some.inj hs
      have hweight : weight Frame.weight ((slowReceiver C checks).sends s .answer) = 3 := by
        simp only [slowReceiver, hpc]
        cases hashMatch <;> rfl
      rw [hpc, hweight]
      exact Nat.lt_succ_self 3
    · cases hs

/-- The loops of both sides, without faults and without a pause. -/
def cleanOk : Net (Sender.State C) (State C) (Frame C) → Sender.Act C ⊕ Act C → Prop :=
  eachOk (fun a => a.clean = true) (fun b => b.clean = true)

def net (x : Job C) (existing : Option Bytes) : Net (Sender.State C) (State C) (Frame C) where
  left := Sender.State.start x
  right := State.start x.key x.metadata existing

/-- The transfer is verified on both sides, and the file is the source. -/
def delivered (source : Bytes) (n : Net (Sender.State C) (State C) (Frame C)) : Prop :=
  n.left.result = some (.ok .verified) ∧ n.right.result = some (.ok ()) ∧
    n.right.file = some source

section Run

variable {x : Job C} {existing : Option Bytes} {checks : Bool} {oL oR iL iR : List (Frame C)}
  {n : Net (Sender.State C) (State C) (Frame C)}

theorem Feasible.deliverable (h : Feasible x existing)
    (hsum : x.metadata.checksum = C.blake3 x.source) : Deliverable x where
  toFits := h.toFits
  placed := Job.placed_of_partition h.partition h.small
  describes := h.partition.toDescribes
  checksum := hsum
  resume _ := h.first

/-- A receiver that has answered more often than it acknowledges is through. -/
theorem Progress.of_length {r : State C} (h : Progress x iR oR r)
    (hlong : x.metadata.totalChunks < oR.length) : r.pc = .returned := by
  by_contra hpc
  have hlen := congrArg List.length h.out
  rw [if_neg hpc, List.append_nil, List.length_map, List.length_range] at hlen
  cases hloop : r.pc.looping with
  | true =>
    have := h.looping hloop
    omega
  | false =>
    have := h.late hloop
    omega

theorem Progress.last {r : State C} (h : Progress x iR oR r) (hpc : r.pc = .returned) :
    oR[x.metadata.totalChunks]? = some ⟨tagComplete, .digest x.metadata.checksum⟩ := by
  have hlate := h.late (by rw [hpc]; rfl)
  rw [h.out, if_pos hpc, ← hlate, List.getElem?_append_right (by simp), List.length_map,
    List.length_range, Nat.sub_self]
  rfl

theorem Progress.answered {r : State C} (h : Progress x iR oR r) (hf : Feasible x existing)
    {i : List (Frame C)} (hpre : i <+: oR) : Sender.Answered x i where
  small f hmem := by
    have hout := hpre.mem hmem
    rw [h.out] at hout
    rcases List.mem_append.mp hout with hout | hout
    · obtain ⟨j, -, rfl⟩ := List.mem_map.mp hout
      rfl
    · split at hout
      · rw [List.mem_singleton.mp hout]
        rfl
      · cases hout
  acks k f hk hget := by
    rw [Job.due, hf.first, Nat.sub_zero] at hk
    have hout : oR[k]? = some f := by
      obtain ⟨rest, rfl⟩ := hpre
      rw [List.getElem?_append_left (List.getElem?_eq_some_iff.mp hget).1, hget]
    by_cases hlt : k < r.chunkIndex
    · rw [h.out, List.getElem?_append_left (by simpa using hlt), List.getElem?_map] at hout
      obtain ⟨j, -, rfl⟩ := Option.map_eq_some_iff.mp hout
      rfl
    · -- the verdict comes only after all the acknowledgements
      exfalso
      have hlong := (List.getElem?_eq_some_iff.mp hout).1
      by_cases hpc : r.pc = .returned
      · have := h.late (by rw [hpc]; rfl)
        omega
      · rw [h.out, if_neg hpc, List.append_nil, List.length_map, List.length_range] at hlong
        exact hlt hlong

/-- **Histories.** In a run without faults both sides keep to what is known of them. -/
theorem histories (hf : Feasible x existing) (hsum : x.metadata.checksum = C.blake3 x.source)
    (hlength : x.source.length < 2 ^ 63)
    (h : LinkRun (sender C) (slowReceiver C checks) cleanOk (Sender.State.start x)
      (State.start x.key x.metadata existing) oL oR n) :
    ∃ iL iR, Sends x iL oL n.left ∧ Progress x iR oR n.right ∧ oL = iR ++ n.toRight ∧
      oR = iL ++ n.toLeft := by
  refine h.linked (Sends.start (hf.deliverable hsum)) (Progress.start hf) ?_ ?_
  · intro iL oL iR oR n a s hs hr hout hin hok hq hh hstep
    have hpre : iL ++ (sender C).recvs a <+: oR := by
      obtain ⟨rest, hrest⟩ := hq
      exact ⟨rest, by rw [List.append_assoc, hrest, hin]⟩
    refine ⟨(Sender.step_job hstep).trans hs.job, hs.genuine.step hstep,
      hs.accounts.step hs.genuine hok hstep, hs.follows.step hok ?_ (fun hhang => ?_) hstep⟩
    · rw [hs.job]
      exact hr.answered hf hpre
    · -- the receiver hangs up only after its verdict
      obtain ⟨hnil, hclosed⟩ := hh hhang
      have hlast := hr.last (by simpa [slowReceiver] using hclosed)
      rw [hin, hnil, List.append_nil] at hlast
      rw [hs.job, Job.due, hf.first, Nat.sub_zero]
      exact (List.getElem?_eq_some_iff.mp hlast).1
  · intro iL oL iR oR n b t hs hr hout hin hok hq hh hstep
    refine hr.step hf hsum hlength hok (fun f hmem => ?_) (fun hhang => ?_) hstep
    · obtain ⟨rest, hrest⟩ := hq
      have hrec : (slowReceiver C checks).recvs b = [f] := by
        cases b with
        | read g => rw [List.mem_singleton.mp hmem]; rfl
        | _ => cases hmem
      rw [hrec, List.singleton_append] at hrest
      have hframe := (hs.next_frame (hout.trans (by rw [← hrest]))).1
      rwa [hf.first, Nat.zero_add] at hframe
    · -- the sender hangs up only after the verdict
      obtain ⟨-, hclosed⟩ := hh hhang
      obtain ⟨f, hget, -⟩ := hs.follows.returned (by simpa [sender] using hclosed)
      rw [hs.job, Job.due, hf.first, Nat.sub_zero] at hget
      have hpc : n.right.pc = .returned := by
        apply hr.of_length
        rw [hin, List.length_append]
        exact Nat.lt_of_lt_of_le (List.getElem?_eq_some_iff.mp hget).1 (Nat.le_add_right _ _)
      cases b with
      | hangup =>
        have hread := (guarded_eq_some.mp hstep).1
        rw [hpc] at hread
        cases hread
      | _ => cases hhang

/-- A receiver that can do nothing waits for a frame or is through. -/
theorem Progress.drained {r : State C} (h : Progress x iR oR r) (hf : Feasible x existing)
    (hlength : x.source.length < 2 ^ 63)
    (stuck : ∀ b t, b.clean → (slowReceiver C checks).recvs b = [] →
      (slowReceiver C checks).hangup b = false → SlowReceive.step checks r b ≠ some t) :
    r.pc = .read ∨ r.pc = .returned := by
  cases hpc : r.pc with
  | read => exact .inl rfl
  | returned => exact .inr rfl
  | write data =>
    have hwritten : ∃ file, r.written checks data = some file ∧ _ :=
      h.written hf.partition hlength hpc
    obtain ⟨file, hwritten, -⟩ := hwritten
    refine absurd ?_ (stuck .write { r with pc := .ack, file := some file } rfl rfl rfl)
    simp only [SlowReceive.step, hpc, hwritten, Option.map_some]
  | ack => exact absurd (guarded_eq_some.mpr ⟨hpc, rfl⟩) (stuck .ack _ rfl rfl rfl)
  | verify =>
    have hdone : r.done = x.metadata.totalChunks := by
      rw [State.done, hpc]
      exact h.late (by rw [hpc]; rfl)
    have hfile := h.file_eq hf.partition hdone
    refine absurd ?_ (stuck .verify
      { r with pc := .answer (decide (C.blake3 x.source = r.metadata.checksum)) } rfl rfl rfl)
    simp only [SlowReceive.step, hpc, hfile]
  | answer hashMatch =>
    refine absurd ?_ (stuck .answer { r with
      pc := .returned, result := some (if hashMatch then .ok () else .error .mismatch) } rfl rfl rfl)
    simp only [SlowReceive.step, hpc]

/-- A sender that can do nothing and has not returned has counted all the answers. -/
theorem counted (hs : Sends x iL oL n.left) (hp : n.left.pc ≠ .returned)
    (hin : oR = iL ++ n.toLeft) (hle : n.left.nextToAck ≤ n.left.bufferedFrames.next)
    (stuck : ((sender C).link (slowReceiver C checks)).Stuck cleanOk n) :
    startChunk x.metadata + oR.length = n.left.nextToAck ∧
      (n.left.pc = .select → n.left.nextToAck + windowSize ≤ n.left.bufferedFrames.next ∨
        n.left.bufferedFrames.next = x.metadata.totalChunks) ∧
      (n.left.pc = .verdict ∨ n.left.pc = .select) := by
  obtain ⟨hacks, hsel, hpc⟩ := Sender.drained hs.follows hs.accounts hs.genuine hp hle
    (stuck_left stuck)
  have hr := hs.follows.reading_of_empty hp (hs.follows.nextToAck_le hp) hacks
  have hempty : n.toLeft = [] := stuck_toLeft stuck (Sender.waiting hr hacks).takes
  obtain ⟨used, hused, hlen⟩ := hs.used_le hp hr
  rw [hacks, List.append_nil] at hused
  rw [hin, hempty, List.append_nil, hused]
  exact ⟨hlen, hs.job ▸ hsel, hpc⟩

/-- A receiver that waits for a frame meets a sender that has one to send. -/
theorem receiver_returned (hf : Feasible x existing) (hlength : x.source.length < 2 ^ 63)
    (hs : Sends x iL oL n.left) (hr : Progress x iR oR n.right) (hout : oL = iR ++ n.toRight)
    (hin : oR = iL ++ n.toLeft)
    (stuck : ((sender C).link (slowReceiver C checks)).Stuck cleanOk n) :
    n.right.pc = .returned := by
  rcases hr.drained hf hlength (stuck_right stuck) with hpc | hpc
  · exfalso
    have hlt := hr.looping (by rw [hpc]; rfl)
    have hempty : n.toRight = [] := stuck_toRight stuck fun f =>
      ⟨.read f, _, rfl, rfl, rfl, guarded_eq_some.mpr ⟨hpc, rfl⟩⟩
    -- every frame that was sent has been acknowledged
    have hanswers : oR.length = n.right.chunkIndex := by
      rw [hr.out, hpc, if_neg (by simp), List.append_nil, List.length_map, List.length_range]
    have hsent := hs.length_eq
    rw [hout, hempty, List.append_nil, hr.inp, List.length_map, List.length_range, State.taken, hpc,
      hf.first, Nat.sub_zero] at hsent
    dsimp only at hsent
    have hshort : ¬ Job.due x < iL.length := fun hlong => by
      rw [hin, List.length_append] at hanswers
      rw [Job.due, hf.first] at hlong
      omega
    have hp : n.left.pc ≠ .returned := fun hp => by
      obtain ⟨f, hget, -⟩ := hs.follows.returned hp
      rw [hs.job] at hget
      exact hshort (List.getElem?_eq_some_iff.mp hget).1
    have hreading : n.left.reading = true := by
      by_contra hread
      have := hs.follows.ended (Bool.eq_false_iff.mpr hread)
      rw [hs.job] at this
      exact hshort this
    have hle : n.left.nextToAck ≤ n.left.bufferedFrames.next := by
      obtain ⟨used, hused, hlen⟩ := hs.used_le hp hreading
      rw [hin, hused, List.length_append, List.length_append] at hanswers
      rw [hf.first] at hlen
      omega
    obtain ⟨hcount, hwindow, hwhere⟩ := counted hs hp hin hle stuck
    rw [hf.first] at hcount
    rcases hwhere with hwhere | hwhere
    · have hlate := hs.follows.late (.inr hwhere)
      rw [hs.job] at hlate
      omega
    · rcases hwindow hwhere with hfull | hall
      · unfold windowSize at hfull
        omega
      · omega
  · exact hpc

/-- A sender that waits for an answer meets a receiver that has given it. -/
theorem sender_returned (hf : Feasible x existing) (hs : Sends x iL oL n.left)
    (hr : Progress x iR oR n.right) (hout : oL = iR ++ n.toRight) (hin : oR = iL ++ n.toLeft)
    (hpc : n.right.pc = .returned)
    (stuck : ((sender C).link (slowReceiver C checks)).Stuck cleanOk n) :
    n.left.pc = .returned := by
  by_contra hp
  have hlong := (List.getElem?_eq_some_iff.mp (hr.last hpc)).1
  have hlate := hr.late (by rw [hpc]; rfl)
  have hle := hs.follows.nextToAck_le hp
  rw [hs.job] at hle
  have hsent : x.metadata.totalChunks ≤ n.left.bufferedFrames.next := by
    have hlen := hs.length_eq
    rw [hout, List.length_append, hr.inp, List.length_map, List.length_range, State.taken, hpc,
      hf.first, Nat.sub_zero] at hlen
    dsimp only at hlen
    omega
  obtain ⟨hcount, -⟩ := counted hs hp hin (hle.trans hsent) stuck
  omega

/-- A transfer that can be delivered is, in every run. -/
theorem endsIn_delivered (hf : Feasible x existing) (hsum : x.metadata.checksum = C.blake3 x.source)
    (hlength : x.source.length < 2 ^ 63) :
    ((sender C).link (slowReceiver C checks)).EndsIn cleanOk (delivered x.source)
      (net x existing) := by
  refine (endsIn_true (Q := slowReceiver C checks) (r := fun r => r.pc.rank)
    (fun _ _ _ hb hs => rank_lower hb hs) x _).mono fun n hreach stuck _ => ?_
  obtain ⟨oL, oR, hrun⟩ := LinkRun.exists_of_reach hreach
  obtain ⟨iL, iR, hs, hr, hout, hin⟩ := histories hf hsum hlength hrun
  have hpc := receiver_returned hf hlength hs hr hout hin stuck
  have hp := sender_returned hf hs hr hout hin hpc stuck
  refine ⟨?_, hr.returned hpc, ?_⟩
  · obtain ⟨f, hget, hres⟩ := hs.follows.returned hp
    rw [hs.job, Job.due, hf.first, Nat.sub_zero] at hget
    have hlast := hr.last hpc
    rw [hin, List.getElem?_append_left (List.getElem?_eq_some_iff.mp hget).1, hget] at hlast
    obtain rfl := Option.some.inj hlast
    rw [hres, Sender.State.outcome, hs.job, if_pos rfl, if_pos rfl]
  · apply hr.file_eq hf.partition
    rw [State.done, hpc]
    exact hr.late (by rw [hpc]; rfl)

end Run

/-! ### A transfer that has been delivered -/

/-- The frames that a sender of the job puts on the stream. -/
def FrameOf (x : Job C) (f : Frame C) : Prop :=
  ∃ j, startChunk x.metadata ≤ j ∧ j < x.metadata.totalChunks ∧ f = x.chunkFrame j

/-- What the loop has met, whatever it was given. -/
structure Meets (x : Job C) (existing : Option Bytes) (s : State C) : Prop where
  key : s.key = x.key
  metadata : s.metadata = x.metadata
  seen : ∀ k < s.taken, x.Seen k
  late : (s.pc = .verify ∨ (∃ hashMatch, s.pc = .answer hashMatch) ∨ s.result = some (.ok ())) →
    x.metadata.totalChunks ≤ s.chunkIndex
  grows : (existing.getD []).length ≤ (s.file.getD []).length

/-- The chunks that have been written lie within the file. -/
structure Places (x : Job C) (s : State C) : Prop where
  writing : ∀ data, s.pc = .write data → data = prepareChunk x.source x.metadata s.chunkIndex
  placed : ∀ k < s.done, k * x.metadata.chunkSize < 2 ^ 63 ∧
    (prepareChunk x.source x.metadata k ≠ [] →
      k * x.metadata.chunkSize + (prepareChunk x.source x.metadata k).length ≤
        (s.file.getD []).length)

section Delivered

variable {x : Job C} {existing : Option Bytes} {checks : Bool} {s t : State C} {b : Act C}

theorem Meets.start (x : Job C) (existing : Option Bytes) :
    Meets x existing (State.start x.key x.metadata existing) := by
  have hpc : (State.start x.key x.metadata existing).pc = State.next x.metadata 0 := rfl
  rcases State.next_cases x.metadata 0 with ⟨hnext, -⟩ | ⟨hnext, hall⟩
  · refine ⟨rfl, rfl, fun k hk => ?_, fun h => ?_, Nat.le_refl _⟩
    · rw [State.taken, hpc, hnext] at hk
      exact absurd hk (Nat.not_lt_zero k)
    · rw [hpc, hnext] at h
      rcases h with h | ⟨hashMatch, h⟩ | h <;> cases h
  · refine ⟨rfl, rfl, fun k hk => ?_, fun _ => hall, Nat.le_refl _⟩
    rw [State.taken, hpc, hnext] at hk
    exact absurd hk (Nat.not_lt_zero k)

theorem State.le_taken (s : State C) : s.chunkIndex ≤ s.taken := by
  rw [State.taken]
  split <;> omega

theorem Meets.fail (h : Meets x existing s) (e : Error) : Meets x existing (s.fail e) where
  key := h.key
  metadata := h.metadata
  seen k hk := h.seen k (Nat.lt_of_lt_of_le hk s.le_taken)
  late hlate := by
    rcases hlate with hlate | ⟨hashMatch, hlate⟩ | hlate <;> cases hlate
  grows := h.grows

theorem Meets.step (h : Meets x existing s) (hb : b.clean)
    (hin : ∀ f ∈ (slowReceiver C checks).recvs b, FrameOf x f)
    (hs : SlowReceive.step checks s b = some t) : Meets x existing t := by
  have hresult : s.result = some (.ok ()) → x.metadata.totalChunks ≤ s.chunkIndex :=
    fun hr => h.late (.inr (.inr hr))
  cases b with
  | readError detail => cases hb
  | writeError n detail => cases hb
  | ackError detail => cases hb
  | verifyError detail => cases hb
  | answerError detail => cases hb
  | read f =>
    obtain ⟨hpc, rfl⟩ := guarded_eq_some.mp hs
    cases htake : s.take f with
    | error e => exact h.fail e
    | ok data =>
      obtain ⟨hfit, compressed, encrypted, hpayload⟩ := chunk_of_take htake
      obtain ⟨j, hle, hlt, rfl⟩ := hin f (List.mem_singleton_self f)
      refine ⟨h.key, h.metadata, fun k hk => ?_, fun hlate => ?_, h.grows⟩
      · rcases Nat.lt_succ_iff_lt_or_eq.mp hk with hk | rfl
        · exact h.seen k (Nat.lt_of_lt_of_le hk s.le_taken)
        · exact ⟨j, hle, hlt, (index_of_payload hpayload).symm, hfit⟩
      · rcases hlate with hlate | ⟨hashMatch, hlate⟩ | hlate
        · cases hlate
        · cases hlate
        · exact hresult hlate
  | hangup =>
    obtain ⟨-, rfl⟩ := guarded_eq_some.mp hs
    exact h.fail _
  | write =>
    simp only [SlowReceive.step] at hs
    split at hs
    · next data hpc =>
      obtain ⟨file, hwritten, rfl⟩ := Option.map_eq_some_iff.mp hs
      obtain ⟨pos, -, -, rfl⟩ := processReceivedChunk_eq_some.mp hwritten
      refine ⟨h.key, h.metadata, fun k hk => h.seen k ?_, fun hlate => ?_,
        h.grows.trans (length_le_writeAt _ _ _)⟩
      · rwa [State.taken, hpc]
      · rcases hlate with hlate | ⟨hashMatch, hlate⟩ | hlate
        · cases hlate
        · cases hlate
        · exact hresult hlate
    · cases hs
  | writeFailed detail =>
    simp only [SlowReceive.step] at hs
    split at hs
    · obtain ⟨-, rfl⟩ := guarded_eq_some.mp hs
      exact h.fail _
    · cases hs
  | ack =>
    obtain ⟨hpc, rfl⟩ := guarded_eq_some.mp hs
    have hseen := h.seen
    rw [State.taken, hpc] at hseen
    rcases State.next_cases s.metadata (s.chunkIndex + 1) with ⟨hnext, -⟩ | ⟨hnext, hall⟩
    · rw [hnext]
      refine ⟨h.key, h.metadata, hseen, fun hlate => ?_, h.grows⟩
      rcases hlate with hlate | ⟨hashMatch, hlate⟩ | hlate
      · cases hlate
      · cases hlate
      · exact (hresult hlate).trans (Nat.le_succ _)
    · rw [hnext]
      exact ⟨h.key, h.metadata, hseen, fun _ => h.metadata ▸ hall, h.grows⟩
  | verify =>
    simp only [SlowReceive.step] at hs
    split at hs
    · next file hpc hfile =>
      obtain rfl := Option.some.inj hs
      have hseen := h.seen
      rw [State.taken, hpc] at hseen
      exact ⟨h.key, h.metadata, hseen, fun _ => h.late (.inl hpc), h.grows⟩
    · cases hs
  | noFile detail =>
    obtain ⟨-, rfl⟩ := guarded_eq_some.mp hs
    exact h.fail _
  | answer =>
    simp only [SlowReceive.step] at hs
    split at hs
    · next hashMatch hpc =>
      obtain rfl := Option.some.inj hs
      have hseen := h.seen
      rw [State.taken, hpc] at hseen
      exact ⟨h.key, h.metadata, hseen, fun _ => h.late (.inr (.inl ⟨hashMatch, hpc⟩)), h.grows⟩
    · cases hs

theorem Places.fail (h : Places x s) (e : Error) : Places x (s.fail e) where
  writing data hpc := by cases hpc
  placed k hk := h.placed k (by
    have hle : s.chunkIndex ≤ s.done := by
      rw [State.done]
      split <;> omega
    exact Nat.lt_of_lt_of_le hk hle)

theorem Places.start (x : Job C) (existing : Option Bytes) :
    Places x (State.start x.key x.metadata existing) := by
  have hpc : (State.start x.key x.metadata existing).pc = State.next x.metadata 0 := rfl
  rcases State.next_cases x.metadata 0 with ⟨hnext, -⟩ | ⟨hnext, -⟩
  · refine ⟨fun data hp => ?_, fun k hk => ?_⟩
    · rw [hpc, hnext] at hp
      cases hp
    · rw [State.done, hpc, hnext] at hk
      exact absurd hk (Nat.not_lt_zero k)
  · refine ⟨fun data hp => ?_, fun k hk => ?_⟩
    · rw [hpc, hnext] at hp
      cases hp
    · rw [State.done, hpc, hnext] at hk
      exact absurd hk (Nat.not_lt_zero k)

theorem Places.step (h : Places x s) (hmeets : Meets x existing s)
    (hsmall : x.metadata.totalChunks ≤ 2 ^ 32) (hsize : x.metadata.chunkSize < 2 ^ 64)
    (hb : b.clean) (hin : ∀ f ∈ (slowReceiver C checks).recvs b, FrameOf x f)
    (hs : SlowReceive.step checks s b = some t) : Places x t := by
  cases b with
  | readError detail => cases hb
  | writeError n detail => cases hb
  | ackError detail => cases hb
  | verifyError detail => cases hb
  | answerError detail => cases hb
  | read f =>
    obtain ⟨hpc, rfl⟩ := guarded_eq_some.mp hs
    cases htake : s.take f with
    | error e => exact h.fail e
    | ok data =>
      have hplaced := h.placed
      rw [State.done, hpc] at hplaced
      refine ⟨fun data' hp => ?_, hplaced⟩
      obtain rfl := Pc.write.inj hp
      obtain ⟨hfit, compressed, encrypted, hpayload⟩ := chunk_of_take htake
      obtain ⟨j, -, hlt, rfl⟩ := hin f (List.mem_singleton_self f)
      have hindex := index_of_payload hpayload
      rw [Nat.mod_eq_of_lt (lt_of_lt_of_le hlt hsmall)] at hindex
      subst hindex
      rw [take_chunkFrame hmeets.key hmeets.metadata (lt_of_lt_of_le hlt hsmall) hfit] at htake
      exact (Except.ok.inj htake).symm
  | hangup =>
    obtain ⟨-, rfl⟩ := guarded_eq_some.mp hs
    exact h.fail _
  | write =>
    simp only [SlowReceive.step] at hs
    split at hs
    · next data hpc =>
      obtain ⟨file, hwritten, rfl⟩ := Option.map_eq_some_iff.mp hs
      obtain ⟨pos, hseek, hmul, rfl⟩ := processReceivedChunk_eq_some.mp hwritten
      have hplaced := h.placed
      rw [State.done, hpc] at hplaced
      -- the place before was in reach, so this product has not overflowed
      have hfits : s.chunkIndex * x.metadata.chunkSize < 2 ^ 64 := by
        cases hk : s.chunkIndex with
        | zero => simp
        | succ k =>
          have hbefore := (hplaced k (hk ▸ Nat.lt_succ_self k)).1
          rw [Nat.succ_mul]
          cases k with
          | zero => omega
          | succ k =>
            rw [Nat.succ_mul] at hbefore ⊢
            omega
      rw [hmeets.metadata, mulU64_of_lt hfits] at hmul
      obtain rfl := Option.some.inj hmul
      refine ⟨fun data' hp => (by cases hp), fun k hk => ?_⟩
      rcases Nat.lt_succ_iff_lt_or_eq.mp hk with hk | rfl
      · obtain ⟨hpos, hlong⟩ := hplaced k hk
        exact ⟨hpos, fun hne => (hlong hne).trans (length_le_writeAt _ _ _)⟩
      · refine ⟨hseek, fun hne => ?_⟩
        rw [h.writing data hpc]
        exact le_length_writeAt _ _ hne
    · cases hs
  | writeFailed detail =>
    simp only [SlowReceive.step] at hs
    split at hs
    · obtain ⟨-, rfl⟩ := guarded_eq_some.mp hs
      exact h.fail _
    · cases hs
  | ack =>
    obtain ⟨hpc, rfl⟩ := guarded_eq_some.mp hs
    have hplaced := h.placed
    rw [State.done, hpc] at hplaced
    rcases State.next_cases s.metadata (s.chunkIndex + 1) with ⟨hnext, -⟩ | ⟨hnext, -⟩
    · rw [hnext]
      exact ⟨fun data hp => (by cases hp), hplaced⟩
    · rw [hnext]
      exact ⟨fun data hp => (by cases hp), hplaced⟩
  | verify =>
    simp only [SlowReceive.step] at hs
    split at hs
    · next file hpc hfile =>
      obtain rfl := Option.some.inj hs
      have hplaced := h.placed
      rw [State.done, hpc] at hplaced
      exact ⟨fun data hp => (by cases hp), hplaced⟩
    · cases hs
  | noFile detail =>
    obtain ⟨-, rfl⟩ := guarded_eq_some.mp hs
    exact h.fail _
  | answer =>
    simp only [SlowReceive.step] at hs
    split at hs
    · next hashMatch hpc =>
      obtain rfl := Option.some.inj hs
      have hplaced := h.placed
      rw [State.done, hpc] at hplaced
      exact ⟨fun data hp => (by cases hp), hplaced⟩
    · cases hs

/-- What the receiver has been given has been sent. -/
theorem trace_of_reach {n : Net (Sender.State C) (State C) (Frame C)}
    (h : ((sender C).link (slowReceiver C checks)).Reach cleanOk (net x existing) n) :
    ∃ i o, (slowReceiver C checks).Trace (fun _ b => b.clean = true)
        (State.start x.key x.metadata existing) i o n.right ∧ ∀ f ∈ i, FrameOf x f := by
  obtain ⟨iL, oL, iR, oR, hl, hr, hout, -⟩ := link_traces (fun _ a => a.clean = true)
    (fun _ b => b.clean = true) (fun _ _ ha => ha) (fun _ _ hb => hb) h
  refine ⟨iR, oR, hr, fun f hf => ?_⟩
  exact Sender.chunk_of_mem hl (hout ▸ List.mem_append_left _ hf)

/-- A transfer that is delivered could be. -/
theorem feasible_of_delivered (hdesc : Describes x.source x.metadata)
    (hmin : minChunkSize ≤ x.metadata.chunkSize) (hsize : x.metadata.chunkSize < 2 ^ 64)
    {n : Net (Sender.State C) (State C) (Frame C)}
    (h : ((sender C).link (slowReceiver C checks)).Reach cleanOk (net x existing) n)
    (hdel : delivered x.source n) : Feasible x existing := by
  obtain ⟨-, hresult, hfile⟩ := hdel
  obtain ⟨i, o, hr, hgiven⟩ := trace_of_reach h
  have hmeets : Meets x existing n.right := by
    refine hr.invariant (I := fun i _ s => (∀ f ∈ i, FrameOf x f) → Meets x existing s)
      (fun _ => .start x existing) (fun i o s b t ih hb hs hin => ?_) hgiven
    exact (ih fun f hf => hin f (List.mem_append_left _ hf)).step hb
      (fun f hf => hin f (List.mem_append_right _ hf)) hs
  have hlate := hmeets.late (.inr (.inr hresult))
  have hseen : ∀ k < x.metadata.totalChunks, x.Seen k := fun k hk =>
    hmeets.seen k (lt_of_lt_of_le hk (hlate.trans n.right.le_taken))
  obtain ⟨hfirst, hfits⟩ := Job.fits_of_seen hdesc.totalChunks_pos hseen
  have hroom := hmeets.grows
  rw [hfile, Option.getD_some] at hroom
  refine ⟨⟨hfits, hfirst, hdesc, Nat.lt_of_lt_of_le (by decide) hmin, ?_⟩, hroom⟩
  by_contra hplaced
  have hplaces : Places x n.right := by
    refine (hr.invariant
      (I := fun i _ s => (∀ f ∈ i, FrameOf x f) → Meets x existing s ∧ Places x s)
      (fun _ => ⟨.start x existing, .start x existing⟩) (fun i o s b t ih hb hs hin => ?_) hgiven).2
    obtain ⟨hm, hp⟩ := ih fun f hf => hin f (List.mem_append_left _ hf)
    exact ⟨hm.step hb (fun f hf => hin f (List.mem_append_right _ hf)) hs,
      hp.step hm hfits.small hsize hb (fun f hf => hin f (List.mem_append_right _ hf)) hs⟩
  -- the last chunk has made the file longer than the source
  have hcap : (Chunker.new x.metadata.chunkSize x.metadata.fileSize).chunkSize =
      max minChunkSize (min maxChunkSize x.metadata.chunkSize) := rfl
  have hle : minChunkSize ≤ maxChunkSize := by decide
  obtain ⟨hpos, hlong⟩ := hdesc.length_lt_last (by omega) (by omega)
  have hdone : x.metadata.totalChunks - 1 < n.right.done := by
    have hpositive := hdesc.totalChunks_pos
    have hle : n.right.chunkIndex ≤ n.right.done := by
      rw [State.done]
      split <;> omega
    omega
  have hpast := (hplaces.placed _ hdone).2 (List.ne_nil_of_length_pos hpos)
  rw [hfile, Option.getD_some] at hpast
  exact absurd hlong (Nat.not_lt.mpr hpast)

/-- Every run of the loops ends, and with the source delivered exactly when it can be. -/
theorem endsIn_feasible (hdesc : Describes x.source x.metadata)
    (hsum : x.metadata.checksum = C.blake3 x.source) (hlength : x.source.length < 2 ^ 63)
    (hmin : minChunkSize ≤ x.metadata.chunkSize) (hsize : x.metadata.chunkSize < 2 ^ 64) :
    ((sender C).link (slowReceiver C checks)).EndsIn cleanOk
      (fun n => delivered x.source n ↔ Feasible x existing) (net x existing) := by
  by_cases hf : Feasible x existing
  · exact (endsIn_delivered hf hsum hlength).mono fun _ _ _ h => ⟨fun _ => hf, fun _ => h⟩
  · have hends := endsIn_true (Q := slowReceiver C checks) (r := fun r => r.pc.rank)
      (fun _ _ _ hb hs => rank_lower hb hs) x (State.start x.key x.metadata existing)
    exact hends.mono fun _ hreach _ _ =>
      ⟨feasible_of_delivered hdesc hmin hsize hreach, fun h => absurd h hf⟩

end Delivered

section Session

variable (C) (sessionId fileName output : Text) (source noncePrefix : Bytes)
  (chunkSize resumeOffset : Nat) (level : Int) (likelyCompressed : Bool)
  (secret secret' : C.Secret) (fs : Files) (checks : Bool)

/-- The runs of `cmd_send` against a slow receiver end in a given way. -/
def Ends (B : Net (Sender.State C) (State C) (Frame C) → Prop) : Prop :=
  Session.EndsIn
    (sendOpening C secret
      (sendMetadata C sessionId fileName source noncePrefix chunkSize resumeOffset) source level
      likelyCompressed)
    (slowAdmission C secret' fs output) (sender C) (slowReceiver C checks) (fun a => a.clean)
    (fun b => b.clean) B (Session.start C _ _)

variable {C sessionId fileName output source noncePrefix chunkSize resumeOffset level
  likelyCompressed secret secret' fs checks}

/-- **The slow receiver.** Every run without faults in which the sender is not paused ends. The file
is then the source, and both sides say so, exactly when the sender has started with the first chunk,
its frames are small enough, their numbers have not been cut, the chunks are placed where the sender
has taken them, and the file that was there is not longer than the source. -/
theorem slow_receive_ends (hlength : source.length < 2 ^ 63) (hsize : chunkSize < 2 ^ 64) :
    Ends C sessionId fileName output source noncePrefix chunkSize resumeOffset level likelyCompressed
      secret secret' fs checks (fun n => delivered source n ↔
        Feasible (transferJob C sessionId fileName source noncePrefix chunkSize resumeOffset level
          likelyCompressed secret secret') (fs (outputPath output fileName))) := by
  -- the reply is the one of the handler
  have hstart := @sendOpening_start C output source level likelyCompressed secret secret' fs
  refine (Session.endsIn_start (A := slowAdmission C secret' fs output) (hstart _ _)).mpr ?_
  apply endsIn_feasible (describes_transferJob ..) rfl hlength
  · exact Nat.le_max_right _ _
  · exact max_lt hsize (by decide)

end Session

theorem feasible_sampleJob : Feasible (sampleJob 0) none where
  toFits := fits_sampleJob 0
  first := by simp [sampleJob, transferJob, startChunk, sendMetadata]
  partition := partition_transferJob (.inl (by decide))
  room := Nat.zero_le _

/-- Two chunks are delivered where no file is, and in no run where there is a longer one. -/
theorem slow_receive_ends_sample :
    Ends .plain [] ['f'] ['/', 'd'] sampleSource [0, 0, 0, 0] 0 0 0 false Primitives.plainSecret
      Primitives.plainSecret noFiles true (delivered sampleSource) ∧
    Ends .plain [] ['f'] ['/', 'd'] sampleSource [0, 0, 0, 0] 0 0 0 false Primitives.plainSecret
      Primitives.plainSecret
      (noFiles.set (outputPath ['/', 'd'] ['f']) (some (sampleSource ++ [0]))) true
      (fun n => ¬ delivered sampleSource n) := by
  have hlength : sampleSource.length < 2 ^ 63 := by
    rw [length_sampleSource]
    decide
  constructor
  · refine (slow_receive_ends hlength (by decide)).mono fun n _ _ h => ?_
    obtain ⟨b, rfl, hb⟩ := h
    exact ⟨b, rfl, hb.mpr feasible_sampleJob⟩
  · refine (slow_receive_ends hlength (by decide)).mono fun n _ _ h => ?_
    obtain ⟨b, rfl, hb⟩ := h
    refine ⟨b, rfl, fun hdel => ?_⟩
    have hroom := (hb.mp hdel).room
    rw [Files.set_self, Option.getD_some] at hroom
    have hlong : ∀ source : Bytes, ¬ (source ++ [0]).length ≤ source.length := by
      intro source
      simp
    exact hlong sampleSource hroom

end SlowReceive

end P2PTransfer.Cli
