import P2PTransfer.Cli.Fresh

/-!
# When a transfer of the command line delivers

COMPLETE says that the hasher has met every number from zero on. So a transfer that is verified
has started with the first chunk, all its frames have been small enough, and their numbers have
not been cut. What is verified is also in its place only if the chunker has kept the chunk size
of the metadata.

## Main definitions

- `Job.Feasible` — the transfer starts at the beginning, fits and is placed well
- `Receiver.Reaches` — how long the stored chunks have made the file

## Main results

- `endsIn_feasible` — every run ends, and with the source delivered exactly when it can be
-/

namespace P2PTransfer.Cli

open Transition Party

variable {C : Primitives}

/-- The transfer starts with the first chunk, its frames reach the receiver, and the chunks lie
where the metadata says. -/
structure Job.Feasible (x : Job C) : Prop extends x.Fits where
  first : startChunk x.metadata = 0
  partition : Partition x.source x.metadata

/-- The number is that of a frame which is small enough to be read. -/
def Job.Seen (x : Job C) (k : Nat) : Prop :=
  ∃ j, startChunk x.metadata ≤ j ∧ j < x.metadata.totalChunks ∧ j % 2 ^ 32 = k ∧
    (x.chunkFrame j).oversized = false

/-- What has been verified has started at the beginning and fits. -/
theorem Job.fits_of_seen {x : Job C} (hpos : 0 < x.metadata.totalChunks)
    (h : ∀ k < x.metadata.totalChunks, x.Seen k) : startChunk x.metadata = 0 ∧ x.Fits := by
  have hsmall : x.metadata.totalChunks ≤ 2 ^ 32 := by
    by_contra hbig
    obtain ⟨j, -, -, hj, -⟩ := h (2 ^ 32) (Nat.not_le.mp hbig)
    have := Nat.mod_lt j (show 0 < 2 ^ 32 by decide)
    omega
  have hsame : ∀ k < x.metadata.totalChunks,
      startChunk x.metadata ≤ k ∧ (x.chunkFrame k).oversized = false := by
    intro k hk
    obtain ⟨j, hle, hlt, hj, hfit⟩ := h k hk
    rw [Nat.mod_eq_of_lt (by omega)] at hj
    exact hj ▸ ⟨hle, hfit⟩
  exact ⟨Nat.le_zero.mp (hsame 0 hpos).1, hsmall, fun j _ hj => (hsame j hj).2⟩

namespace Receiver

/-- What has been stored is within the file. -/
def Reaches (x : Job C) (s : State C) : Prop :=
  ∀ j, s.stored j → prepareChunk x.source x.metadata j ≠ [] →
    offsetOf x.metadata j + (prepareChunk x.source x.metadata j).length ≤ s.file.given.length

theorem Reaches.start (x : Job C) (existing : Bytes) :
    Reaches x (State.start x.key x.metadata existing) := by
  intro j hj
  rcases hj with hj | hj <;> cases hj

theorem Reaches.step {x : Job C} {s t : State C} {b : Act C} (h : Reaches x s)
    (hg : Genuine x s) (hb : b.lossless) (hs : Receiver.step s b = some t) : Reaches x t := by
  intro j hj hne
  rw [hg.stored_iff hs] at hj
  cases b with
  | written item =>
    obtain ⟨⟨hmem, -, hidle, -⟩, rfl⟩ := guarded_eq_some.mp hs
    obtain ⟨-, hdata⟩ := hg.writing item hmem
    show _ ≤ (s.file.write (offsetOf s.metadata item.1) item.2).given.length
    rw [AsyncFile.given_write _ _ hidle]
    rcases hj with hj | ⟨other, ho, rfl⟩
    · have hle := h j hj hne
      rw [AsyncFile.given_of_idle hidle] at hle
      exact hle.trans (length_le_writeAt ..)
    · cases ho
      rw [hg.metadata, ← hdata]
      exact le_length_writeAt _ _ (hdata ▸ hne)
  | lost n detail => cases hb
  | writeError item n detail =>
    obtain ⟨⟨⟨-, -, hidle, -⟩, -⟩, rfl⟩ := guarded_eq_some.mp hs
    have hle := h j (by simpa using hj) hne
    show _ ≤ (s.file.fail (offsetOf s.metadata item.1) item.2 n).given.length
    rw [AsyncFile.given_of_idle hidle] at hle
    rw [AsyncFile.given_fail _ _ _ hidle]
    exact hle.trans (length_le_writeAt ..)
  | _ =>
    have hfile : t.file.given = s.file.given := by
      first
        | (obtain ⟨-, rfl⟩ := guarded_eq_some.mp hs; rfl)
        | (simp only [Receiver.step] at hs
           split at hs
           · obtain rfl := Option.some.inj hs
             rfl
           · cases hs)
    rw [hfile]
    exact h j (by simpa using hj) hne

end Receiver

namespace Sender

/-- What a history of the sender without faults says, whoever answers it. -/
theorem sent_of_trace {x : Job C} {i o : List (Frame C)} {s : State C}
    (h : (sender C).Trace (fun _ a => a.clean = true) (State.start x) i o s) :
    s.job = x ∧ Genuine o s ∧ Accounts o s := by
  refine h.invariant (I := fun _ o s => s.job = x ∧ Genuine o s ∧ Accounts o s)
    ⟨rfl, .start x, .start x⟩ fun i o s a t hsent ha hs => ?_
  obtain ⟨hjob, hg, hacc⟩ := hsent
  exact ⟨(step_job hs).trans hjob, hg.step hs, hacc.step hg ha hs⟩

/-- Only chunks from the first to send on are put on the stream. -/
theorem chunk_of_mem {x : Job C} {i o : List (Frame C)} {s : State C}
    (h : (sender C).Trace (fun _ a => a.clean = true) (State.start x) i o s) {f : Frame C}
    (hf : f ∈ o) :
    ∃ j, startChunk x.metadata ≤ j ∧ j < x.metadata.totalChunks ∧ f = x.chunkFrame j := by
  obtain ⟨rfl, hg, hacc⟩ := sent_of_trace h
  rw [hacc.out] at hf
  obtain ⟨j, hj, rfl⟩ := List.mem_map.mp hf
  obtain ⟨hle, hlt⟩ := List.mem_range'_1.mp hj
  have := hacc.first
  have := hacc.sent
  have := hg.next
  exact ⟨j, hle, by omega, rfl⟩

end Sender

/-- The number in the frame of a chunk is cut. -/
theorem Receiver.index_of_chunkFrame {x : Job C} {j : Nat} {item : Nat × Bool × Bytes}
    (h : chunkOf (x.chunkFrame j) = some item) : item.1 = j % 2 ^ 32 := by
  unfold Job.chunkFrame Job.frame at h
  split at h <;>
  · simp only [chunkOf, Frame.ofChunk, if_true, Option.some.injEq] at h
    rw [← h]

section Loops

variable {x : Job C} {existing : Bytes} {n : Net (Sender.State C) (Receiver.State C) (Frame C)}

/-- What the receiver has taken has been sent. -/
theorem taken_of_reach (h : ((sender C).link (receiver C)).Reach cleanOk (x.net existing) n) :
    ∃ i o, (receiver C).Trace (fun _ b => b.lossless)
        (Receiver.State.start x.key x.metadata existing) i o n.right ∧
      ∀ f ∈ i, ∃ j, startChunk x.metadata ≤ j ∧ j < x.metadata.totalChunks ∧ f = x.chunkFrame j := by
  obtain ⟨iL, oL, iR, oR, hl, hr, hout, -⟩ := link_traces (fun _ a => a.clean = true)
    (fun _ b => b.lossless) (fun _ _ ha => ha) lossless_of_cleanOk h
  refine ⟨iR, oR, hr, fun f hf => ?_⟩
  exact Sender.chunk_of_mem hl (hout ▸ List.mem_append_left _ hf)

/-- A verified transfer has met all numbers. -/
theorem seen_of_valid (h : ((sender C).link (receiver C)).Reach cleanOk (x.net existing) n)
    (hvalid : n.right.isValid = some true) :
    x.metadata.totalChunks ≤ n.right.buffered.next ∧ ∀ k < x.metadata.totalChunks, x.Seen k := by
  obtain ⟨i, o, hr, hin⟩ := taken_of_reach h
  have hnum := hr.invariant (I := fun i _ r => (∀ f ∈ i, ∃ j, startChunk x.metadata ≤ j ∧
      j < x.metadata.totalChunks ∧ f = x.chunkFrame j) →
        Receiver.Numbers x.metadata x.Seen x.Seen r)
    (fun _ => .start ..) (fun i o r b t ih _ hs hin => ?_) hin
  · exact ⟨hnum.valid hvalid, fun k hk => hnum.next k (Nat.lt_of_lt_of_le hk (hnum.valid hvalid))⟩
  · refine (ih fun f hf => hin f (List.mem_append_left _ hf)).step (fun k hk _ => hk)
      (fun f hf hfit item hitem => ?_) hs
    obtain ⟨j, hle, hlt, rfl⟩ := hin f (List.mem_append_right _ hf)
    exact ⟨j, hle, hlt, (Receiver.index_of_chunkFrame hitem).symm, hfit⟩

/-- What has been stored of a transfer that fits is within the file. -/
theorem reaches_of_reach (h : ((sender C).link (receiver C)).Reach cleanOk (x.net existing) n)
    (hsmall : x.metadata.totalChunks ≤ 2 ^ 32) : Receiver.Reaches x n.right := by
  obtain ⟨i, o, hr, hin⟩ := taken_of_reach h
  refine (hr.invariant (I := fun i _ r => (∀ f ∈ i, ∃ j, startChunk x.metadata ≤ j ∧
      j < x.metadata.totalChunks ∧ f = x.chunkFrame j) →
        Receiver.Genuine x r ∧ Receiver.Reaches x r)
    (fun _ => ⟨.start x existing, .start x existing⟩) (fun i o r b t ih hb hs hin => ?_) hin).2
  obtain ⟨hg, hreaches⟩ := ih fun f hf => hin f (List.mem_append_left _ hf)
  refine ⟨hg.step hsmall (fun f hf => ?_) hs, hreaches.step hg hb hs⟩
  obtain ⟨j, -, hlt, rfl⟩ := hin f (List.mem_append_right _ hf)
  exact ⟨j, hlt, rfl⟩

/-- A transfer that is delivered could be. -/
theorem feasible_of_delivered (hdesc : Describes x.source x.metadata)
    (hsize : minChunkSize ≤ x.metadata.chunkSize) (hcs : x.metadata.chunkSize < 2 ^ 64)
    (h : ((sender C).link (receiver C)).Reach cleanOk (x.net existing) n)
    (hidle : n.right.file.inflight = none) (hdel : delivered x.source n) : x.Feasible := by
  have hseek := placed_of_verified hcs h hdel.1
  obtain ⟨⟨-, hvalid⟩, hfile⟩ := hdel
  obtain ⟨hnext, hseen⟩ := seen_of_valid h hvalid
  obtain ⟨hfirst, hfits⟩ := Job.fits_of_seen hdesc.totalChunks_pos hseen
  refine ⟨hfits, hfirst, hdesc, Nat.lt_of_lt_of_le (by decide) hsize, ?_⟩
  by_contra hplaced
  -- the last chunk has made the file longer than the source
  have hcap : (Chunker.new x.metadata.chunkSize x.metadata.fileSize).chunkSize =
      max minChunkSize (min maxChunkSize x.metadata.chunkSize) := rfl
  have hmin : minChunkSize ≤ maxChunkSize := by decide
  obtain ⟨hpos, hlong⟩ := hdesc.length_lt_last (by omega) (by omega)
  have hpast := reaches_of_reach h hfits.small (x.metadata.totalChunks - 1)
    (.inl (by have := hdesc.totalChunks_pos; omega)) (List.ne_nil_of_length_pos hpos)
  have hlast : x.metadata.totalChunks - 1 < x.metadata.totalChunks :=
    Nat.sub_lt hdesc.totalChunks_pos Nat.one_pos
  rw [AsyncFile.given_of_idle hidle, hfile, hseek.offset hlast] at hpast
  exact absurd hlong (Nat.not_lt.mpr hpast)

end Loops

/-- Against any receiver that does finitely much for each frame, every run of the sender without
faults comes to its end. -/
theorem endsIn_true {τ β : Type} {Q : Party τ β (Frame C)} {okQ : β → Prop} {r : τ → Nat}
    (hlower : ∀ t b t', okQ b → Q.step t b = some t' →
      r t' + weight Frame.weight (Q.sends t b) < r t + weight Frame.weight (Q.recvs b))
    (x : Job C) (t : τ) :
    ((sender C).link Q).EndsIn (eachOk (fun a => a.clean = true) okQ) (fun _ => True)
      ⟨Sender.State.start x, t, [], []⟩ := by
  refine Machine.endsIn_of_rank
    (fun n => ∃ i o, (sender C).Trace (fun _ a => a.clean = true) (Sender.State.start x) i o n.left)
    (linkRank Sender.State.rank r Frame.weight) ?_ ?_ (fun _ _ _ => trivial) ⟨[], [], .nil⟩
  · rintro n a n' ⟨i, o, hl⟩ ho hs
    cases a with
    | inl a =>
      obtain ⟨s, rest, hstep, -, -, rfl⟩ := link_inl.mp hs
      exact ⟨_, _, hl.snoc ho hstep⟩
    | inr b =>
      obtain ⟨t, rest, -, -, -, rfl⟩ := link_inr.mp hs
      exact ⟨i, o, hl⟩
  · rintro n a n' ⟨i, o, hl⟩ ho hs
    exact linkRank_lower (fun _ _ ho hs => Sender.rank_lower (Sender.sent_of_trace hl).2.1 ho hs)
      (fun _ _ ho hs => hlower _ _ _ ho hs) ho hs

/-- **Delivery.** Every run comes to its end, and with the source delivered exactly when the
transfer is feasible. -/
theorem endsIn_feasible {x : Job C} (hdesc : Describes x.source x.metadata)
    (hsize : minChunkSize ≤ x.metadata.chunkSize) (hcs : x.metadata.chunkSize < 2 ^ 64)
    (hsum : x.metadata.checksum = C.blake3 x.source)
    (hres : x.metadata.isResume = false → startChunk x.metadata = 0) (existing : Bytes) :
    ((sender C).link (receiver C)).EndsIn cleanOk (fun n => delivered x.source n ↔ x.Feasible)
      (x.net existing) := by
  by_cases hf : x.Feasible
  · have hd : Deliverable x :=
      ⟨hf.toFits, hdesc, hsum, hres, Job.placed_of_partition hf.partition hf.small⟩
    exact (endsIn_delivered hd hf.first hf.partition existing).mono fun _ _ _ h =>
      ⟨fun _ => hf, fun _ => h⟩
  · have hends := endsIn_true (fun _ _ _ hb hs => Receiver.rank_lower hb hs) x
      (Receiver.State.start x.key x.metadata existing)
    exact hends.mono fun _ hreach hstuck _ =>
      ⟨feasible_of_delivered hdesc hsize hcs hreach (Receiver.idle_of_stuck (stuck_right hstuck)),
        fun h => absurd h hf⟩

end P2PTransfer.Cli
