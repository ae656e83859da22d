import P2PTransfer.Cli.Receiver

/-!
# What COMPLETE says of the output file

`ReceiverHandler::run` hashes what its tasks hand over, by the numbers of the chunks, and the
disk holds what they wrote, by their offsets. Nothing ties a number to one content, or the
length of a chunk to the offset of the next, and what the last write puts off is flushed only
after COMPLETE. For a peer whose chunks are the pieces of one content both views agree, as long as
nothing that has been put off is lost.

## Main definitions

- `Receiver.PieceOf` — a frame carries a piece of a content, if it can be read
- `Receiver.Pieced`, `Receiver.Filed` — what the tasks work on, and what hash and file have
- `Receiver.Flushed` — what the flush leaves

## Main results

- `Receiver.complete_describes_file` — COMPLETE is about the file
-/

namespace P2PTransfer.Cli.Receiver

open Transition

variable {C : Primitives}

/-- If the frame can be read, it carries the piece of the content that has its number. -/
def PieceOf (content : Bytes) (s : State C) (f : Frame C) : Prop :=
  ∀ item data, chunkOf f = some item → s.open item = some data →
    data = piece content s.metadata.chunkSize item.1

/-- Everything that the receiver works on is a piece of the content. -/
def Pieced (content : Bytes) (s₀ s : State C) : Prop :=
  Carries s₀ (PieceOf content s₀)
    (fun item => ∀ data, s₀.open item = some data →
      data = piece content s₀.metadata.chunkSize item.1)
    (fun item => item.2 = piece content s₀.metadata.chunkSize item.1)
    (piece content s₀.metadata.chunkSize) s

/-- The hash and the file have the content as far as they go, and the verdict is about all
of it. -/
structure Filed (content : Bytes) (s : State C) : Prop where
  hashed : s.hashed =
    ((List.range s.buffered.next).map (piece content s.metadata.chunkSize)).flatten
  disk : s.file.Over content
  file : ∀ p < content.length, s.stored (p / s.metadata.chunkSize) →
    s.file.given[p]? = content[p]?
  verdict : s.isValid = some true →
    s.metadata.totalChunks ≤ s.buffered.next ∧ C.blake3 content = s.metadata.checksum

section Steps

variable {content : Bytes} {s₀ s t : State C} {b : Act C}

theorem Pieced.step (h : Pieced content s₀ s)
    (hin : ∀ f ∈ (receiver C).recvs b, PieceOf content s₀ f)
    (hs : Receiver.step s b = some t) : Pieced content s₀ t :=
  Carries.step h (fun _ item hf hitem data hdata => hf item data hitem hdata)
    (fun _ data hitem hdata => hitem data hdata) (fun _ hitem => hitem) hin hs

theorem Pieced.hash (h : Pieced content s₀ s) (item : Nat × Bytes)
    (hhead : s.hashQueue.head? = some item) :
    (s.buffered.insert item.1 item.2).Holds (piece content s₀.metadata.chunkSize) :=
  Carries.hash h (fun _ hitem => hitem) hhead

theorem Filed.start (content : Bytes) (key : C.Key) {m : TransferMetadata C} (existing : Bytes)
    (hlen : content.length = m.fileSize) : Filed content (State.start key m existing) where
  hashed := rfl
  disk := .idle (by rw [State.start, length_setLen, hlen]) rfl
  file p _ h := by rcases h with h | h <;> cases h
  verdict h := by cases h

/-- The offset of a piece that has bytes is not cut. -/
theorem offsetOf_eq {m : TransferMetadata C} (hsize : content.length < 2 ^ 64) {index : Nat}
    (hlt : index * m.chunkSize < content.length) : offsetOf m index = index * m.chunkSize :=
  Nat.mod_eq_of_lt (hlt.trans hsize)

/-- The tasks write parts of the content at their places. -/
theorem Pieced.parts (h : Pieced content s₀ s) (hsize : content.length < 2 ^ 64) :
    ∀ item ∈ s.writing, item.2 <+: content.drop (offsetOf s.metadata item.1) := by
  intro item hmem
  have hdata : item.2 = piece content s₀.metadata.chunkSize item.1 := h.writing item hmem
  have hm : s.metadata = s₀.metadata := h.metadata
  by_cases hlt : item.1 * s₀.metadata.chunkSize < content.length
  · rw [hm, offsetOf_eq hsize hlt, hdata]
    exact piece_part content s₀.metadata.chunkSize item.1
  · have hnil : item.2 = [] := by
      rw [hdata, piece, List.drop_eq_nil_of_le (Nat.not_lt.mp hlt), List.take_nil]
    rw [hnil]
    exact List.nil_prefix

/-- A chunk that is written is given at its place. -/
theorem Pieced.written (h : Pieced content s₀ s) (hsize : content.length < 2 ^ 64)
    (hpos : 0 < s.metadata.chunkSize) {item : Nat × Bytes} (hmem : item ∈ s.writing) {p : Nat}
    (hp : p < content.length) (hdiv : p / s.metadata.chunkSize = item.1) :
    offsetOf s.metadata item.1 ≤ p ∧ p < offsetOf s.metadata item.1 + item.2.length := by
  have hdata : item.2 = piece content s₀.metadata.chunkSize item.1 := h.writing item hmem
  have hm : s.metadata = s₀.metadata := h.metadata
  have hin := mem_piece hpos hp hdiv
  rw [offsetOf_eq hsize (hin.1.trans_lt hp), hdata, ← hm]
  exact hin

theorem Filed.step (h : Filed content s) (hpieced : Pieced content s₀ s)
    (hsize : content.length < 2 ^ 64)
    (hcovers : content.length ≤ s.metadata.totalChunks * s.metadata.chunkSize) (hb : b.lossless)
    (hs : Receiver.step s b = some t) : Filed content t := by
  have hm : s.metadata = s₀.metadata := hpieced.metadata
  have hstored := stored_iff hpieced.hash hs
  have hparts := hpieced.parts hsize
  have hdisk := (file_step h.disk hparts hs).1
  have hsame : t.metadata = s.metadata := by
    cases b with
    | ack | ackError =>
      simp only [Receiver.step] at hs
      split at hs
      · obtain rfl := Option.some.inj hs
        rfl
      · cases hs
    | _ =>
      obtain ⟨-, rfl⟩ := guarded_eq_some.mp hs
      rfl
  have hfile : ∀ p < content.length, t.stored (p / t.metadata.chunkSize) →
      t.file.given[p]? = content[p]? := by
    intro p hp hst
    have hpos : 0 < s.metadata.chunkSize := by
      rcases Nat.eq_zero_or_pos s.metadata.chunkSize with hzero | hpos
      · rw [hzero, Nat.mul_zero] at hcovers
        omega
      · exact hpos
    apply given_step h.disk hparts hb hs
    rw [hsame] at hst
    rcases (hstored _).mp hst with hst | ⟨item, rfl, hj⟩
    · exact .inl (h.file p hp hst)
    · obtain ⟨⟨hmem, -⟩, -⟩ := guarded_eq_some.mp hs
      exact .inr ⟨item, rfl, hpieced.written hsize hpos hmem hp hj.symm⟩
  obtain ⟨h1, -, -, h4⟩ := h
  cases b with
  | hash item =>
    have hholds := hpieced.hash item (guarded_eq_some.mp hs).1
    rw [← hm] at hholds
    obtain ⟨hhead, rfl⟩ := guarded_eq_some.mp hs
    obtain ⟨k, hout, hnext, -⟩ :=
      Reorder.drain_spec (s.buffered.insert item.1 item.2).waiting.length hholds
    rw [← Reorder.release] at hout hnext
    have hstart : (s.buffered.insert item.1 item.2).next = s.buffered.next := rfl
    rw [hstart] at hout hnext
    refine ⟨?_, hdisk, hfile, fun hv => ?_⟩
    · show s.hashed ++ (s.buffered.insert item.1 item.2).release.1.flatten =
        ((List.range (s.buffered.insert item.1 item.2).release.2.next).map
          (piece content s.metadata.chunkSize)).flatten
      rw [hout, hnext, h1, ← List.flatten_append, ← List.map_append, List.range_eq_range',
        List.range_eq_range', ← List.range'_append_1, Nat.zero_add]
    · obtain ⟨htotal, hsum⟩ := h4 hv
      refine ⟨htotal.trans ?_, hsum⟩
      show s.buffered.next ≤ (s.buffered.insert item.1 item.2).release.2.next
      rw [hnext]
      exact Nat.le_add_right _ _
  | ack | ackError =>
    simp only [Receiver.step] at hs
    split at hs
    · obtain rfl := Option.some.inj hs
      exact ⟨h1, hdisk, hfile, h4⟩
    · cases hs
  | verdict | verdictLost =>
    obtain ⟨-, rfl⟩ := guarded_eq_some.mp hs
    refine ⟨h1, hdisk, hfile, fun hv => ?_⟩
    obtain ⟨hnext, hsum⟩ := of_decide_eq_true (Option.some.inj hv)
    refine ⟨hnext.ge, ?_⟩
    show C.blake3 content = s.metadata.checksum
    rw [← hsum, h1, hnext, flatten_pieces, List.take_of_length_le hcovers]
  | _ =>
    obtain ⟨-, rfl⟩ := guarded_eq_some.mp hs
    exact ⟨h1, hdisk, hfile, h4⟩

/-- After the verdict no task is left to write, and a call that returns has nothing on its way to
the disk. -/
structure Flushed (s : State C) : Prop where
  clear : s.file.lastWriteErr = none
  settled : s.isValid ≠ none → s.pc.ended ∧ s.settled
  idle : s.isValid ≠ none → s.pc = .returned → s.file.inflight = none

theorem Flushed.start (key : C.Key) (m : TransferMetadata C) (existing : Bytes) :
    Flushed (State.start key m existing) where
  clear := rfl
  settled h := absurd rfl h
  idle h := absurd rfl h

theorem Flushed.running (h : Flushed s) (hrun : ¬ (s.pc.ended ∧ s.settled)) : s.isValid = none := by
  by_contra hv
  exact hrun (h.settled hv)

theorem Flushed.of_running (hclear : s.file.lastWriteErr = none) (hrun : s.isValid = none) :
    Flushed s where
  clear := hclear
  settled hv := absurd hrun hv
  idle hv := absurd hrun hv

theorem Flushed.step (h : Flushed s) (hb : b.lossless) (hs : Receiver.step s b = some t) :
    Flushed t := by
  have hclear := clear_step h.clear hb hs
  cases b with
  | lost n detail => cases hb
  | lastError item detail =>
    obtain ⟨⟨-, -, -, -, herr⟩, -⟩ := guarded_eq_some.mp hs
    rw [h.clear] at herr
    cases herr
  | flushFailed detail =>
    obtain ⟨⟨-, herr⟩, -⟩ := guarded_eq_some.mp hs
    rw [h.clear] at herr
    cases herr
  | landed =>
    obtain ⟨-, rfl⟩ := guarded_eq_some.mp hs
    exact ⟨hclear, h.settled, fun _ _ => rfl⟩
  -- what a task does or the loop goes on with, it does before the verdict
  | decrypted | decryptError =>
    obtain ⟨⟨hmem, -⟩, rfl⟩ := guarded_eq_some.mp hs
    exact .of_running hclear (h.running fun hset => List.ne_nil_of_mem hmem hset.2.1)
  | overflow | seekError | written =>
    obtain ⟨⟨hmem, -⟩, rfl⟩ := guarded_eq_some.mp hs
    exact .of_running hclear (h.running fun hset => List.ne_nil_of_mem hmem hset.2.2.1)
  | writeError item n detail =>
    obtain ⟨⟨⟨hmem, -⟩, -⟩, rfl⟩ := guarded_eq_some.mp hs
    exact .of_running hclear (h.running fun hset => List.ne_nil_of_mem hmem hset.2.2.1)
  | handed item =>
    obtain ⟨hmem, rfl⟩ := guarded_eq_some.mp hs
    exact .of_running hclear (h.running fun hset => List.ne_nil_of_mem hmem hset.2.2.2.1)
  | hash item =>
    obtain ⟨hhead, rfl⟩ := guarded_eq_some.mp hs
    exact .of_running hclear
      (h.running fun hset => List.ne_nil_of_mem (List.mem_of_mem_head? hhead) hset.2.2.2.2)
  | ack | ackError =>
    simp only [Receiver.step] at hs
    split at hs
    · next index hpc =>
      obtain rfl := Option.some.inj hs
      refine .of_running hclear (h.running fun hset => ?_)
      rw [hpc] at hset
      cases hset.1
    · cases hs
  | spawn | badFrame | readFailed | join | joinError =>
    obtain ⟨⟨hpc, -⟩, rfl⟩ := guarded_eq_some.mp hs
    refine .of_running hclear (h.running fun hset => ?_)
    rw [hpc] at hset
    cases hset.1
  | verdict | verdictLost =>
    obtain ⟨⟨-, hset⟩, rfl⟩ := guarded_eq_some.mp hs
    exact ⟨hclear, fun _ => ⟨rfl, hset⟩, fun _ hret => (by cases hret)⟩
  | flush =>
    obtain ⟨⟨-, hidle, -⟩, rfl⟩ := guarded_eq_some.mp hs
    exact ⟨hclear, fun hv => ⟨rfl, (h.settled hv).2⟩, fun _ _ => hidle⟩
  | readFrame | hangup | readError =>
    obtain ⟨-, rfl⟩ := guarded_eq_some.mp hs
    exact ⟨hclear, h.settled, h.idle⟩

end Steps

/-- One byte in one chunk. -/
def sampleMetadata : TransferMetadata .plain where
  sessionId := []
  fileName := ['f']
  fileSize := 1
  chunkSize := 1
  totalChunks := 1
  checksum := [1]

/-- What a chunk frame with the number 0 carries. -/
def sampleItem (b : UInt8) : Nat × Bool × Bytes :=
  (0, false, Primitives.plain.encrypt () (buildNonce [0, 0, 0, 0] 0) [b])

def sampleChunk (b : UInt8) : Frame .plain := Frame.ofChunk 0 false (sampleItem b).2.2

end P2PTransfer.Cli.Receiver
