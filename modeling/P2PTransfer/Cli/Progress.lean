import P2PTransfer.Cli.Transfer

/-!
# The progress that the sender records

`cmd_send` counts the acknowledgements and takes the n-th for that of the n-th chunk, while
the receiver acknowledges the chunks in the order in which it joins their tasks, and a task may
end before its last write. What is recorded is on the receiver's disk as long as the tasks are
joined in the order of the chunks and after their writes, and the first of them begins where the
count does; otherwise a chunk that is missing there is taken for sent.

## Main definitions

- `Durable` — what has been recorded has been written
- `inOrder` — the order of the tasks, of their writes and of the acknowledgements
- `Job.Aligned` — the count of a resume begins with a chunk

## Main results

- `durable_while_in_order` — what is recorded in such a run is on the disk
- `exists_not_durable`, `not_durable_of_not_aligned` — what happens in others
-/

namespace P2PTransfer.Cli

open Transition Party

variable {C : Primitives}

/-- A byte that the receiver had before, or whose chunk has been written. -/
def Written (x : Job C) (r : Receiver.State C) (p : Nat) : Prop :=
  p < x.metadata.resumeOffset ∨ r.stored (p / x.metadata.chunkSize)

/-- Every byte of the file below the recorded progress has been written by the receiver, and
the disk has it as the source does. -/
def Durable (x : Job C) (n : Net (Sender.State C) (Receiver.State C) (Frame C)) : Prop :=
  ∀ b, n.left.progress = some b → ∀ p < b, p < x.source.length →
    Written x n.right p ∧ n.right.file.content[p]? = x.source[p]?

/-- The tasks are joined in the order of their chunks, a chunk is acknowledged when nothing of it
is on its way to the disk any more, and nothing that has been put off is lost. -/
def Receiver.State.inOrder (r : Receiver.State C) : Receiver.Act C → Prop
  | .join index => index = r.chunksReceived
  | .ack => ∀ index w, r.pc = .ack index → r.file.inflight = some w →
      w.1 / r.metadata.chunkSize ≠ index
  | .lost _ _ => False
  | _ => True

/-- Nothing is asked of the sender. -/
def inOrder (n : Net (Sender.State C) (Receiver.State C) (Frame C)) :
    Sender.Act C ⊕ Receiver.Act C → Prop
  | .inl _ => True
  | .inr b => n.right.inOrder b

/-- The first chunk that is sent begins at the offset, or it is the last one. -/
def Job.Aligned (x : Job C) : Prop :=
  x.metadata.chunkSize ∣ x.metadata.resumeOffset ∨
    startChunk x.metadata + 1 = x.metadata.totalChunks

namespace Sender

/-- Only an acknowledgement moves the counts. -/
theorem step_counts {s t : State C} {a : Act C} (hs : step s a = some t) :
    (t.nextToAck = s.nextToAck ∧ t.bytesSent = s.bytesSent ∧ t.progress = s.progress) ∨
      (∃ f, a = .ack f) ∧ t.nextToAck = s.nextToAck + 1 ∧
        t.bytesSent = s.bytesSent + s.lenToInc ∧ t.progress = some (s.bytesSent + s.lenToInc) := by
  cases a with
  | ack f =>
    obtain ⟨-, rfl⟩ := guarded_eq_some.mp hs
    exact .inr ⟨⟨f, rfl⟩, rfl, rfl, rfl⟩
  | spawn =>
    obtain ⟨data, -, rfl⟩ := Option.map_eq_some_iff.mp hs
    exact .inl ⟨rfl, rfl, rfl⟩
  | pause =>
    obtain rfl := Option.some.inj hs
    exact .inl ⟨rfl, rfl, rfl⟩
  | _ =>
    simp only [step, guarded_eq_some] at hs
    obtain ⟨-, rfl⟩ := hs
    exact .inl ⟨rfl, rfl, rfl⟩

theorem lenToInc_le {s : State C} (h : 0 < s.job.metadata.chunkSize) :
    s.lenToInc ≤ s.job.metadata.chunkSize := by
  have hmod := Nat.mod_lt s.job.metadata.fileSize h
  unfold State.lenToInc
  dsimp only
  split_ifs <;> omega

/-- The count of bytes goes with that of the acknowledgements, and it is what is recorded. -/
structure Records (x : Job C) (s : State C) : Prop where
  job : s.job = x
  bytes : s.bytesSent + startChunk x.metadata * x.metadata.chunkSize ≤
    x.metadata.resumeOffset + s.nextToAck * x.metadata.chunkSize
  recorded : ∀ b, s.progress = some b → b = s.bytesSent

theorem Records.start (x : Job C) : Records x (State.start x) where
  job := rfl
  bytes := Nat.le_refl _
  recorded b h := by cases h

theorem Records.step {x : Job C} {s t : State C} {a : Act C} (h : Records x s)
    (hpos : 0 < x.metadata.chunkSize) (hs : step s a = some t) : Records x t := by
  have hjob := (step_job hs).trans h.job
  have hbytes := h.bytes
  rcases step_counts hs with ⟨hack, hsent, hprog⟩ | ⟨-, hack, hsent, hprog⟩
  · refine ⟨hjob, by rwa [hack, hsent], fun b hb => ?_⟩
    rw [hsent]
    exact h.recorded b (hprog ▸ hb)
  · have hle := lenToInc_le (s := s) (by rwa [h.job])
    rw [h.job] at hle
    refine ⟨hjob, ?_, fun b hb => ?_⟩
    · rw [hack, hsent, Nat.succ_mul]
      omega
    · rw [hprog] at hb
      rw [hsent]
      exact (Option.some.inj hb).symm

/-- A byte that has been counted is before the offset or in a chunk that has been counted. -/
theorem Records.chunk_lt {x : Job C} {s : State C} (h : Records x s)
    (hpart : Partition x.source x.metadata) (halign : x.Aligned) {p : Nat}
    (hp : p < s.bytesSent) (hlt : p < x.source.length) (hoff : x.metadata.resumeOffset ≤ p) :
    startChunk x.metadata ≤ p / x.metadata.chunkSize ∧ p / x.metadata.chunkSize < s.nextToAck := by
  have hbytes := h.bytes
  have hdiv := hpart.div_lt hlt
  have hmono := Nat.div_le_div_right (c := x.metadata.chunkSize) hoff
  refine ⟨(Nat.min_le_left _ _).trans hmono, ?_⟩
  by_cases hlast : startChunk x.metadata + 1 = x.metadata.totalChunks
  · -- an acknowledgement has been counted, and there is only one to count
    have hone : startChunk x.metadata < s.nextToAck := by
      by_contra hge
      have := Nat.mul_le_mul_right x.metadata.chunkSize (Nat.not_lt.mp hge)
      omega
    omega
  · have hstart : startChunk x.metadata * x.metadata.chunkSize = x.metadata.resumeOffset := by
      have heq : startChunk x.metadata = x.metadata.resumeOffset / x.metadata.chunkSize := by
        unfold startChunk at hlast ⊢
        omega
      rw [heq]
      exact Nat.div_mul_cancel (halign.resolve_right hlast)
    rw [Nat.div_lt_iff_lt_mul hpart.pos]
    omega

end Sender

namespace Receiver

section Ordered

variable {x : Job C} {s t : State C} {b : Act C} {o : List (Frame C)}

theorem inflight_step {w : Nat × Bytes} (hs : step s b = some t) (hw : t.file.inflight = some w) :
    s.file.inflight = some w ∨ ∃ item ∈ s.writing, item.2 ≠ [] ∧
      w = (offsetOf s.metadata item.1 + AsyncFile.ahead item.2,
        item.2.drop (AsyncFile.ahead item.2)) := by
  cases b with
  | written item =>
    obtain ⟨⟨hmem, -⟩, rfl⟩ := guarded_eq_some.mp hs
    dsimp only [AsyncFile.write] at hw
    split at hw
    · exact .inl hw
    · next hne => exact .inr ⟨item, hmem, hne, (Option.some.inj hw).symm⟩
  | landed | lost =>
    obtain ⟨-, rfl⟩ := guarded_eq_some.mp hs
    cases hw
  | ack | ackError =>
    simp only [step] at hs
    split at hs
    · obtain rfl := Option.some.inj hs
      exact .inl hw
    · cases hs
  | _ =>
    obtain ⟨-, rfl⟩ := guarded_eq_some.mp hs
    exact .inl hw

/-- What is on its way to the disk is of one chunk. -/
def Whole (x : Job C) (s : State C) : Prop :=
  ∀ w, s.file.inflight = some w → ∀ p, w.1 ≤ p → p < w.1 + w.2.length →
    p / x.metadata.chunkSize = w.1 / x.metadata.chunkSize

theorem Whole.step (h : Whole x s) (hg : Genuine x s) (hpart : Partition x.source x.metadata)
    (hplaced : x.Placed) (hs : Receiver.step s b = some t) : Whole x t := by
  intro w hw p hle hlt
  rcases inflight_step hs hw with hold | ⟨item, hmem, hne, rfl⟩
  · exact h w hold p hle hlt
  · obtain ⟨hnum, hdata⟩ := hg.writing item hmem
    have hlen : item.2.length ≤ x.metadata.chunkSize := by
      rw [hdata, hpart.prepareChunk_eq, length_piece]
      exact Nat.min_le_left _ _
    have hpos := List.length_pos_iff.mpr hne
    have hahead : AsyncFile.ahead item.2 ≤ item.2.length - 1 := Nat.div_mul_le_self _ _
    rw [hg.metadata, hplaced.offset hnum] at hle hlt ⊢
    dsimp only at hle hlt ⊢
    rw [List.length_drop] at hlt
    have hdiv : ∀ q, item.1 * x.metadata.chunkSize ≤ q →
        q < item.1 * x.metadata.chunkSize + item.2.length → q / x.metadata.chunkSize = item.1 := by
      intro q hq hq'
      apply Nat.div_eq_of_lt_le hq
      rw [Nat.succ_mul]
      omega
    rw [hdiv p (by omega) (by omega), hdiv _ (Nat.le_add_right _ _) (by omega)]

/-- The chunks are acknowledged in their order, and the disk has those that have been. -/
structure Ordered (x : Job C) (o : List (Frame C)) (s : State C) : Prop where
  whole : Whole x s
  ready : ∀ j ∈ s.finished, s.stored j
  pending : ∀ index, s.pc = .ack index → index = s.chunksReceived ∧ s.stored index
  sent : startChunk x.metadata + o.countP Sender.isAck ≤ s.chunksReceived
  stored : ∀ j, startChunk x.metadata ≤ j → j < s.chunksReceived → s.stored j
  disk : ∀ p < x.source.length, p < x.metadata.resumeOffset ∨
    startChunk x.metadata ≤ p / x.metadata.chunkSize ∧
      p / x.metadata.chunkSize < s.chunksReceived → s.file.content[p]? = x.source[p]?

theorem Ordered.start {existing : Bytes} (hpart : Partition x.source x.metadata)
    (hresume : x.metadata.isResume = false → startChunk x.metadata = 0)
    (hbase : ∀ p < x.metadata.resumeOffset, p < x.source.length →
      existing[p]? = x.source[p]?) :
    Ordered x [] (State.start x.key x.metadata existing) := by
  have hcount : (State.start x.key x.metadata existing).chunksReceived =
      startChunk x.metadata := by
    show (if x.metadata.isResume then startChunk x.metadata else 0) = _
    split
    · rfl
    · next hnot => exact (hresume (Bool.eq_false_iff.mpr hnot)).symm
  refine ⟨fun w h => (by cases h), fun j h => (by cases h), fun index h => (by cases h),
    hcount.ge, fun j hle hlt => absurd hlt (by omega), fun p hp h => ?_⟩
  have hoff : p < x.metadata.resumeOffset := h.resolve_right (by omega)
  have hbefore := hbase p hoff hp
  have hlen : p < existing.length := by
    rw [List.getElem?_eq_getElem hp] at hbefore
    exact (List.getElem?_eq_some_iff.mp hbefore).1
  exact (getElem?_setLen (by rw [hpart.fileSize]; exact hp) hlen).trans hbefore

/-- The chunk that is acknowledged is on the disk. -/
theorem Stores.content_of_ack {base : Nat → Prop} {index : Nat} (h : Stores x base s)
    (hm : s.metadata = x.metadata) (hwhole : Whole x s) (hst : s.stored index)
    (hpc : s.pc = .ack index) (hok : s.inOrder .ack) :
    ∀ p < x.source.length, p / x.metadata.chunkSize = index →
      s.file.content[p]? = x.source[p]? := by
  intro p hp hdiv
  have hlen := h.disk.length
  apply AsyncFile.Over.content_of_given (h.file p hp (.inr (hdiv ▸ hst))) (by omega)
  intro w hw
  by_contra hin
  obtain ⟨hle, hlt⟩ := not_or.mp hin
  apply hok index w hpc hw
  rw [hm, ← hwhole w hw p (by omega) (by omega), hdiv]

theorem Ordered.step {base : Nat → Prop} (h : Ordered x o s) (hg : Genuine x s)
    (hst : Stores x base s) (hpart : Partition x.source x.metadata) (hplaced : x.Placed)
    (hok : s.inOrder b) (hs : Receiver.step s b = some t) :
    Ordered x (o ++ (receiver C).sends s b) t := by
  have hwhole := h.whole.step hg hpart hplaced hs
  have hmono : ∀ j, s.stored j → t.stored j := fun j hj => (hg.stored_iff hs j).mpr (.inl hj)
  have hdisk := (file_step hst.disk (hg.parts hpart hplaced) hs).2
  have hcontent := @Stores.content_of_ack _ _ _ _ s.chunksReceived hst hg.metadata h.whole
  obtain ⟨-, h2, h3, h4, h5, h6⟩ := h
  have hready : ∀ j ∈ s.finished, t.stored j := fun j hj => hmono j (h2 j hj)
  have hpending : ∀ index, s.pc = .ack index → index = s.chunksReceived ∧ t.stored index :=
    fun index hp => (h3 index hp).imp_right (hmono index)
  have hstored : ∀ j, startChunk x.metadata ≤ j → j < s.chunksReceived → t.stored j :=
    fun j hle hlt => hmono j (h5 j hle hlt)
  have hbytes : ∀ p < x.source.length, p < x.metadata.resumeOffset ∨
      startChunk x.metadata ≤ p / x.metadata.chunkSize ∧
        p / x.metadata.chunkSize < s.chunksReceived → t.file.content[p]? = x.source[p]? :=
    fun p hp hin => hdisk p (h6 p hp hin)
  cases b with
  | ack =>
    cases hp : s.pc with
    | ack index =>
      obtain ⟨rfl, hnow⟩ := h3 index hp
      simp only [Receiver.step, hp, Option.some.injEq] at hs
      have hsend : (receiver C).sends s .ack = [ackFrame s.chunksReceived] := by
        simp only [receiver, hp]
      have hcount : t.chunksReceived = s.chunksReceived + 1 := by rw [← hs]
      have hpc : ∀ index, t.pc ≠ .ack index := by
        intro index
        rw [← hs]
        dsimp only
        split <;> simp
      have hfin : t.finished = s.finished := by rw [← hs]
      rw [hsend]
      refine ⟨hwhole, fun j hj => hready j (hfin ▸ hj), fun index hi => absurd hi (hpc index), ?_,
        fun j hle hlt => ?_, fun k hk hin => ?_⟩
      · have hone : [(ackFrame s.chunksReceived : Frame C)].countP Sender.isAck = 1 := rfl
        rw [List.countP_append, hone, hcount]
        omega
      · rw [hcount] at hlt
        rcases Nat.lt_succ_iff_lt_or_eq.mp hlt with hlt | rfl
        · exact hstored j hle hlt
        · exact hmono _ hnow
      · by_cases hlast : k / x.metadata.chunkSize = s.chunksReceived
        · exact hdisk k (hcontent hnow hp hok k hk hlast)
        · exact hbytes k hk (hin.imp_right fun h => ⟨h.1, by omega⟩)
    | _ => simp [Receiver.step, hp] at hs
  | join index =>
    obtain ⟨⟨-, hmem⟩, rfl⟩ := guarded_eq_some.mp hs
    simp only [receiver, List.append_nil]
    refine ⟨hwhole, fun j hj => hready j (List.mem_of_mem_erase hj), fun i hi => ?_, h4, hstored,
      hbytes⟩
    obtain rfl := Pc.ack.inj hi
    exact ⟨hok, hready index hmem⟩
  | handed item =>
    have hnow : s.stored item.1 := by
      have hpos : 0 < tally Prod.fst s.hashing item.1 :=
        tally_pos.mpr ⟨item, (guarded_eq_some.mp hs).1, rfl⟩
      unfold State.stored
      omega
    have hnow := hmono _ hnow
    obtain ⟨-, rfl⟩ := guarded_eq_some.mp hs
    simp only [receiver, List.append_nil]
    refine ⟨hwhole, fun j hj => ?_, hpending, h4, hstored, hbytes⟩
    rcases List.mem_append.mp hj with hj | hj
    · exact hready j hj
    · rw [List.mem_singleton.mp hj]
      exact hnow
  | verdict =>
    have hnone : Sender.isAck s.verdict = false := by
      unfold State.verdict
      split <;> rfl
    obtain ⟨-, rfl⟩ := guarded_eq_some.mp hs
    refine ⟨hwhole, hready, fun i hi => (by cases hi), ?_, hstored, hbytes⟩
    show startChunk x.metadata + (o ++ [s.verdict]).countP Sender.isAck ≤ _
    rw [List.countP_append, List.countP_singleton, hnone]
    exact h4
  | badFrame | readFailed | joinError | verdictLost | flush | flushFailed =>
    obtain ⟨-, rfl⟩ := guarded_eq_some.mp hs
    simp only [receiver, List.append_nil]
    exact ⟨hwhole, hready, fun i hi => (by cases hi), h4, hstored, hbytes⟩
  | ackError detail =>
    simp only [Receiver.step] at hs
    split at hs
    · obtain rfl := Option.some.inj hs
      simp only [receiver, List.append_nil]
      exact ⟨hwhole, hready, fun i hi => (by cases hi), h4, hstored, hbytes⟩
    · cases hs
  | _ =>
    obtain ⟨-, rfl⟩ := guarded_eq_some.mp hs
    simp only [receiver, List.append_nil]
    exact ⟨hwhole, hready, hpending, h4, hstored, hbytes⟩

end Ordered

end Receiver

section Runs

variable {x : Job C} {existing : Bytes}
  {n : Net (Sender.State C) (Receiver.State C) (Frame C)}

/-- Histories in order: every chunk that the sender has counted has been acknowledged in its
turn. -/
theorem counted_of_inOrder (hpart : Partition x.source x.metadata)
    (hsmall : x.metadata.totalChunks ≤ 2 ^ 32)
    (hresume : x.metadata.isResume = false → startChunk x.metadata = 0)
    (hbase : ∀ p < x.metadata.resumeOffset, p < x.source.length → existing[p]? = x.source[p]?)
    (h : ((sender C).link (receiver C)).Reach inOrder (x.net existing) n) :
    ∃ o, Sender.Records x n.left ∧ Receiver.Ordered x o n.right ∧
      n.left.nextToAck ≤ n.right.chunksReceived := by
  have hplaced := Job.placed_of_partition hpart hsmall
  obtain ⟨oL, oR, hrun⟩ := LinkRun.exists_of_reach h
  obtain ⟨iL, iR, ⟨hgen, hrec, hcounts⟩, ⟨hg, hst, hord⟩, -, hin⟩ := hrun.linked
    (I := fun i o s => Sender.Genuine o s ∧ Sender.Records x s ∧ Sender.Counts i s)
    (J := fun _ o r => Receiver.Genuine x r ∧
      Receiver.Stores x (fun p => existing[p]? = x.source[p]?) r ∧ Receiver.Ordered x o r)
    ⟨.start x, .start x, .start x⟩
    ⟨.start x existing, .start hpart existing, .start hpart hresume hbase⟩
    (fun iL oL iR oR n a s hs _ _ _ _ _ _ hstep =>
      ⟨hs.1.step hstep, hs.2.1.step hpart.pos hstep, hs.2.2.step hstep⟩)
    (fun iL oL iR oR n b t hs hr hout _ hok hq _ hstep => by
      have hlossless : b.lossless := by
        cases b with
        | lost n detail => exact hok.elim
        | _ => rfl
      refine ⟨hr.1.step hsmall (fun f hf => ?_) hstep,
        hr.2.1.step hr.1 hpart hplaced hlossless hstep,
        hr.2.2.step hr.1 hr.2.1 hpart hplaced hok hstep⟩
      have hmem : f ∈ oL := by
        rw [hout]
        exact List.mem_append_right _ (hq.mem hf)
      rw [← hs.2.1.job]
      exact hs.1.out f hmem)
  refine ⟨oR, hrec, hord, ?_⟩
  have hcounted := hcounts.counted
  rw [hrec.job] at hcounted
  have hfirst : (iL.takeWhile Sender.isAck).length ≤ oR.countP Sender.isAck := by
    calc (iL.takeWhile Sender.isAck).length
        ≤ iL.countP Sender.isAck := Sender.takeWhile_isAck_le iL
      _ ≤ oR.countP Sender.isAck := by
          rw [hin, List.countP_append]
          exact Nat.le_add_right _ _
  exact hcounted.trans ((Nat.add_le_add_left hfirst _).trans hord.sent)

/-- A resume from the recorded progress sends every byte that the receiver does not have. -/
theorem Durable.resent (h : Durable x n) {b p : Nat}
    (hb : n.left.progress = some b) (hp : p < x.source.length)
    (hmiss : n.right.file.content[p]? ≠ x.source[p]?) :
    startChunk { x.metadata with resumeOffset := b } ≤ p / x.metadata.chunkSize := by
  have hle : b ≤ p := by
    by_contra hlt
    exact hmiss (h b hb p (Nat.not_le.mp hlt) hp).2
  exact (Nat.min_le_left _ _).trans (Nat.div_le_div_right hle)

/-- **Recorded progress.** In a run in which the tasks are joined in order and after their writes,
what is recorded has been written, and a resume from it sends what the receiver does not have. -/
theorem durable_while_in_order (hpart : Partition x.source x.metadata)
    (hsmall : x.metadata.totalChunks ≤ 2 ^ 32) (halign : x.Aligned)
    (hresume : x.metadata.isResume = false → startChunk x.metadata = 0)
    (hbase : ∀ p < x.metadata.resumeOffset, p < x.source.length → existing[p]? = x.source[p]?)
    (h : ((sender C).link (receiver C)).Reach inOrder (x.net existing) n) :
    Durable x n ∧ ∀ b, n.left.progress = some b → ∀ p < x.source.length,
      n.right.file.content[p]? ≠ x.source[p]? →
        startChunk { x.metadata with resumeOffset := b } ≤ p / x.metadata.chunkSize := by
  obtain ⟨o, hrec, hord, hcounted⟩ := counted_of_inOrder hpart hsmall hresume hbase h
  have hdurable : Durable x n := by
    intro b hb p hp hlt
    obtain rfl := hrec.recorded b hb
    by_cases hoff : p < x.metadata.resumeOffset
    · exact ⟨.inl hoff, hord.disk p hlt (.inl hoff)⟩
    · obtain ⟨hfirst, hchunk⟩ := hrec.chunk_lt hpart halign hp hlt (Nat.not_lt.mp hoff)
      have hbelow := hchunk.trans_le hcounted
      exact ⟨.inr (hord.stored _ hfirst hbelow), hord.disk p hlt (.inr ⟨hfirst, hbelow⟩)⟩
  exact ⟨hdurable, fun b hb p hp hmiss => hdurable.resent hb hp hmiss⟩

end Runs

section EarlyAck

/-- A sender between two chunks: those below `j` are on the stream, `f` tasks have ended. -/
def Sender.between (x : Job C) (j f : Nat) : Sender.State C :=
  { Sender.State.start x with nextChunk := j, finished := f, bufferedFrames := ⟨j, []⟩ }

/-- The steps of a run without faults in which nobody hangs up. -/
def Sender.quiet (_ : Sender.State C) (a : Sender.Act C) : Prop :=
  a.clean = true ∧ (sender C).hangup a = false

def Receiver.quiet (_ : Receiver.State C) (b : Receiver.Act C) : Prop :=
  b.clean = true ∧ (receiver C).hangup b = false

/-- The steps that bring a chunk to the stream. -/
def Sender.Act.outgoing : Sender.Act C → Bool
  | .prepare | .spawn | .encrypted _ | .take _ | .write _ | .flushed | .proceed => true
  | _ => false

theorem Sender.quiet_of_outgoing {s : Sender.State C} {a : Sender.Act C} (h : a.outgoing = true) :
    Sender.quiet s a := by
  cases a <;> first | exact ⟨rfl, rfl⟩ | exact absurd h Bool.false_ne_true

/-- One chunk after the other goes out. -/
theorem Sender.put_one {x : Job C} {j f : Nat} (hj : startChunk x.metadata ≤ j)
    (hwin : j - startChunk x.metadata < windowSize) (hf : f < maxTasks)
    (hlt : j < x.metadata.totalChunks) :
    (sender C).Trace (fun _ a => a.outgoing = true) (Sender.between x j f) [] [x.chunkFrame j]
      (Sender.between x (j + 1) (f + 1)) := by
  have hprep : (sender C).step (Sender.between x j f) .prepare = some
      { Sender.between x j f with preparing := some (prepareChunk x.source x.metadata j) } :=
    guarded_eq_some.mpr ⟨⟨rfl, Bool.false_ne_true, rfl, hlt, by
      simpa [State.tasks, Sender.between, State.start] using hf⟩, rfl⟩
  have hspawn : (sender C).step { Sender.between x j f with
        preparing := some (prepareChunk x.source x.metadata j) } .spawn = some
      { Sender.between x j f with
        encrypting := [(j, prepareChunk x.source x.metadata j)], nextChunk := j + 1 } := rfl
  have henc : (sender C).step { Sender.between x j f with
        encrypting := [(j, prepareChunk x.source x.metadata j)], nextChunk := j + 1 }
        (.encrypted (j, prepareChunk x.source x.metadata j)) = some
      { Sender.between x (j + 1) (f + 1) with
        bufferedFrames := ⟨j, []⟩, net := [(j, x.chunkFrame j)] } :=
    guarded_eq_some.mpr ⟨⟨List.mem_singleton_self _, show 0 < netCapacity by decide⟩, by
      rw [List.erase_cons_head]
      rfl⟩
  have htake : (sender C).step { Sender.between x (j + 1) (f + 1) with
        bufferedFrames := ⟨j, []⟩, net := [(j, x.chunkFrame j)] } (.take (j, x.chunkFrame j)) = some
      { Sender.between x (j + 1) (f + 1) with
        pc := .flush, bufferedFrames := ⟨j, [(j, x.chunkFrame j)]⟩ } :=
    guarded_eq_some.mpr ⟨⟨rfl, rfl, hj, hwin⟩, rfl⟩
  have hwrite : (sender C).step { Sender.between x (j + 1) (f + 1) with
        pc := .flush, bufferedFrames := ⟨j, [(j, x.chunkFrame j)]⟩ } (.write (x.chunkFrame j)) = some
      { Sender.between x (j + 1) (f + 1) with pc := .flush } := by
    refine guarded_eq_some.mpr ⟨⟨rfl, by simp [Reorder.ready]⟩, ?_⟩
    have hadv : (⟨j, [(j, x.chunkFrame j)]⟩ : Reorder (Frame C)).advance = ⟨j + 1, []⟩ := by
      simp [Reorder.advance]
    rw [hadv]
    rfl
  have hflush : (sender C).step { Sender.between x (j + 1) (f + 1) with pc := .flush } .flushed = some
      { Sender.between x (j + 1) (f + 1) with pc := .check } := rfl
  have hproceed : (sender C).step { Sender.between x (j + 1) (f + 1) with pc := .check } .proceed = some
      (Sender.between x (j + 1) (f + 1)) := rfl
  have hstart : (sender C).Trace (fun _ a => a.outgoing = true) (Sender.between x j f) [] []
    (Sender.between x j f) := .nil
  have hmade := ((hstart.snoc rfl hprep).snoc rfl hspawn).snoc rfl henc
  have hsent := ((hmade.snoc rfl htake).snoc rfl hwrite).snoc rfl hflush
  exact hsent.snoc rfl hproceed

theorem Sender.send_one {x : Job C} {j f : Nat} (hj : startChunk x.metadata ≤ j)
    (hwin : j - startChunk x.metadata < windowSize) (hf : f < maxTasks)
    (hlt : j < x.metadata.totalChunks) :
    (sender C).Trace Sender.quiet (Sender.between x j f) [] [x.chunkFrame j]
      (Sender.between x (j + 1) (f + 1)) :=
  (Sender.put_one hj hwin hf hlt).weaken fun _ _ ha _ => Sender.quiet_of_outgoing ha

/-- The steps that bring a chunk to the disk. -/
def Receiver.Act.incoming : Receiver.Act C → Bool
  | .readFrame _ | .spawn _ _ | .decrypted _ _ | .written _ | .handed _ | .landed => true
  | _ => false

theorem Receiver.quiet_of_incoming {r : Receiver.State C} {b : Receiver.Act C}
    (h : b.incoming = true) : Receiver.quiet r b := by
  cases b <;> first | exact ⟨rfl, rfl⟩ | exact absurd h Bool.false_ne_true

/-- A frame that the receiver's channel has room for is given to a task. -/
theorem Receiver.spawn_one {r : Receiver.State C} {f : Frame C} {item : Nat × Bool × Bytes}
    (hpc : r.pc = .select) (hread : r.reading = true) (hchannel : r.channel = [])
    (hfit : f.oversized = false) (hitem : chunkOf f = some item) :
    (receiver C).Trace (fun _ b => b.incoming = true) r [f] []
      { r with decrypting := r.decrypting ++ [item] } := by
  have htake : (receiver C).step r (.readFrame f) = some { r with channel := [.ok f] } := by
    refine guarded_eq_some.mpr ⟨⟨hread, by rw [hchannel]; exact Nat.zero_le _⟩, ?_⟩
    have hnext : (if f.oversized then Except.error "Oversized message".toList else .ok f) =
        (.ok f : Except Text (Frame C)) := if_neg (by rw [hfit]; exact Bool.false_ne_true)
    rw [hnext, hfit, hchannel, Bool.not_false, ← hread]
    rfl
  have hspawn : (receiver C).step { r with channel := [.ok f] } (.spawn f item) = some
      { r with decrypting := r.decrypting ++ [item] } := by
    refine guarded_eq_some.mpr ⟨⟨hpc, rfl, hitem⟩, ?_⟩
    rw [List.tail_cons, ← hchannel]
  have hstart : (receiver C).Trace (fun _ b => b.incoming = true) r [] [] r := .nil
  exact (hstart.snoc rfl htake).snoc rfl hspawn

theorem Receiver.take_one {r : Receiver.State C} {f : Frame C} {item : Nat × Bool × Bytes}
    (hpc : r.pc = .select) (hread : r.reading = true) (hchannel : r.channel = [])
    (hfit : f.oversized = false) (hitem : chunkOf f = some item) :
    (receiver C).Trace Receiver.quiet r [f] []
      { r with decrypting := r.decrypting ++ [item] } :=
  (Receiver.spawn_one hpc hread hchannel hfit hitem).weaken fun _ _ hb _ =>
    Receiver.quiet_of_incoming hb

/-- The tasks of the chunks leave these as they are. -/
structure Receiver.Alike (r r' : Receiver.State C) : Prop where
  key : r'.key = r.key
  metadata : r'.metadata = r.metadata
  reading : r'.reading = r.reading
  channel : r'.channel = r.channel
  chunksReceived : r'.chunksReceived = r.chunksReceived

/-- Nothing is on its way to the disk, and nothing has been lost there. -/
def Receiver.State.Calm (r : Receiver.State C) : Prop :=
  r.file.inflight = none ∧ r.file.lastWriteErr = none

/-- What is on its way to the disk may arrive there. -/
theorem Receiver.land_one {r : Receiver.State C} (hclear : r.file.lastWriteErr = none) :
    ∃ r', (receiver C).Trace (fun _ b => b.incoming = true) r [] [] r' ∧
      (∃ file : AsyncFile, r' = { r with file := file }) ∧ r'.Calm := by
  by_cases hidle : r.file.inflight = none
  · exact ⟨r, .nil, ⟨r.file, rfl⟩, hidle, hclear⟩
  · have hland : (receiver C).step r .landed = some { r with file := r.file.land } :=
      guarded_eq_some.mpr ⟨hidle, rfl⟩
    have hstart : (receiver C).Trace (fun _ b => b.incoming = true) r [] [] r := .nil
    exact ⟨_, hstart.snoc rfl hland, ⟨_, rfl⟩, rfl, hclear⟩

/-- The task of a chunk may end before the others. -/
theorem Receiver.work_one {r : Receiver.State C} (item : Nat × Bool × Bytes) {data : Bytes}
    (hmem : item ∈ r.decrypting) (hopen : r.open item = some data)
    (hseek : (seekStart (offsetOf r.metadata item.1)).isSome) (hcalm : r.Calm) :
    ∃ r', (receiver C).Trace (fun _ b => b.incoming = true) r [] [] r' ∧ r'.pc = r.pc ∧
      item.1 ∈ r'.finished ∧ r'.Calm ∧ Receiver.Alike r r' ∧
      ∀ j, r'.stored j → r.stored j ∨ j = item.1 := by
  have hdec : (receiver C).step r (.decrypted item data) = some
      { r with decrypting := r.decrypting.erase item, writing := r.writing ++ [(item.1, data)] } :=
    guarded_eq_some.mpr ⟨⟨hmem, hopen⟩, rfl⟩
  have hwrite : (receiver C).step { r with
        decrypting := r.decrypting.erase item, writing := r.writing ++ [(item.1, data)] }
        (.written (item.1, data)) = some
      { r with decrypting := r.decrypting.erase item,
               writing := (r.writing ++ [(item.1, data)]).erase (item.1, data),
               hashing := r.hashing ++ [(item.1, data)],
               file := r.file.write (offsetOf r.metadata item.1) data } :=
    guarded_eq_some.mpr ⟨⟨by simp, hseek, hcalm.1, .inr hcalm.2⟩, rfl⟩
  have hhand : (receiver C).step { r with
        decrypting := r.decrypting.erase item,
        writing := (r.writing ++ [(item.1, data)]).erase (item.1, data),
        hashing := r.hashing ++ [(item.1, data)],
        file := r.file.write (offsetOf r.metadata item.1) data }
        (.handed (item.1, data)) = some
      { r with decrypting := r.decrypting.erase item,
               writing := (r.writing ++ [(item.1, data)]).erase (item.1, data),
               hashing := (r.hashing ++ [(item.1, data)]).erase (item.1, data),
               file := r.file.write (offsetOf r.metadata item.1) data,
               finished := r.finished ++ [item.1], hashQueue := r.hashQueue ++ [(item.1, data)] } :=
    guarded_eq_some.mpr ⟨by simp, rfl⟩
  have hstart : (receiver C).Trace (fun _ b => b.incoming = true) r [] [] r := .nil
  have hhanded := ((hstart.snoc rfl hdec).snoc rfl hwrite).snoc rfl hhand
  obtain ⟨r', hland, ⟨file, rfl⟩, hcalm'⟩ := Receiver.land_one (r := { r with
    decrypting := r.decrypting.erase item,
    writing := (r.writing ++ [(item.1, data)]).erase (item.1, data),
    hashing := (r.hashing ++ [(item.1, data)]).erase (item.1, data),
    file := r.file.write (offsetOf r.metadata item.1) data,
    finished := r.finished ++ [item.1], hashQueue := r.hashQueue ++ [(item.1, data)] })
    ((AsyncFile.lastWriteErr_write ..).trans hcalm.2)
  refine ⟨_, hhanded.trans hland, rfl, by simp, hcalm', ⟨rfl, rfl, rfl, rfl, rfl⟩, fun j hj => ?_⟩
  have herase := tally_erase Prod.fst j
    (List.mem_append_right r.hashing (List.mem_singleton_self (item.1, data)))
  simp only [Receiver.State.stored, tally_append, tally_cons, tally_nil] at hj herase ⊢
  by_cases heq : item.1 = j
  · exact .inr heq.symm
  · rw [if_neg heq] at hj herase
    omega

/-- A chunk whose task has ended is joined. -/
theorem Receiver.step_join {r : Receiver.State C} {index : Nat} (hpc : r.pc = .select)
    (hmem : index ∈ r.finished) : (receiver C).step r (.join index) =
      some { r with finished := r.finished.erase index, pc := .ack index } :=
  guarded_eq_some.mpr ⟨⟨hpc, hmem⟩, rfl⟩

theorem Receiver.join_one {r : Receiver.State C} (item : Nat × Bool × Bytes) {data : Bytes}
    (hpc : r.pc = .select) (hmem : item ∈ r.decrypting) (hopen : r.open item = some data)
    (hseek : (seekStart (offsetOf r.metadata item.1)).isSome) (hcalm : r.Calm) :
    ∃ r', (receiver C).Trace Receiver.quiet r [] [] r' ∧ r'.pc = .ack item.1 ∧ r'.Calm ∧
      Receiver.Alike r r' ∧ ∀ j, r'.stored j → r.stored j ∨ j = item.1 := by
  obtain ⟨r', hwork, hpc', hfin, hcalm', halike, hstored⟩ :=
    Receiver.work_one item hmem hopen hseek hcalm
  have hquiet : (receiver C).Trace Receiver.quiet r [] [] r' :=
    hwork.weaken fun _ _ hb _ => Receiver.quiet_of_incoming hb
  obtain ⟨h1, h2, h3, h4, h5⟩ := halike
  exact ⟨_, hquiet.snoc ⟨rfl, rfl⟩ (Receiver.step_join (hpc'.trans hpc) hfin), rfl, hcalm',
    ⟨h1, h2, h3, h4, h5⟩, hstored⟩

/-- A chunk whose task has been joined is acknowledged. -/
theorem Receiver.step_ack {r : Receiver.State C} {index : Nat} (hpc : r.pc = .ack index) :
    (receiver C).step r .ack = some
      { r with chunksReceived := r.chunksReceived + 1,
               pc := if r.chunksReceived + 1 = r.metadata.totalChunks then .verify else .select } ∧
      (receiver C).sends r .ack = [Receiver.ackFrame index] := by
  constructor
  · show Receiver.step r .ack = _
    simp only [Receiver.step, hpc]
  · simp only [receiver, hpc]

theorem Receiver.ack_joined {r : Receiver.State C} {index : Nat} (hpc : r.pc = .ack index) :
    (receiver C).Trace Receiver.quiet r [] [Receiver.ackFrame index]
      { r with chunksReceived := r.chunksReceived + 1,
               pc := if r.chunksReceived + 1 = r.metadata.totalChunks then .verify else .select } := by
  obtain ⟨hstep, hsend⟩ := Receiver.step_ack hpc
  have hstart : (receiver C).Trace Receiver.quiet r [] [] r := .nil
  have hacked := hstart.snoc ⟨rfl, rfl⟩ hstep
  rwa [hsend] at hacked

/-- Of two chunks the second one may be acknowledged first. -/
theorem Receiver.ack_second {x : Job C} (hd : Deliverable x) (existing : Bytes)
    (htwo : startChunk x.metadata + 1 < x.metadata.totalChunks) :
    ∃ r, (receiver C).Trace Receiver.quiet (Receiver.State.start x.key x.metadata existing)
      [x.chunkFrame (startChunk x.metadata), x.chunkFrame (startChunk x.metadata + 1)]
      [Receiver.ackFrame (startChunk x.metadata + 1)] r ∧ ¬ r.stored (startChunk x.metadata) := by
  have hsmall := hd.small
  have hfit := hd.fits _ (Nat.le_refl _) (by omega)
  have hfit' := hd.fits _ (Nat.le_succ _) htwo
  obtain ⟨item, hitem⟩ := Option.ne_none_iff_exists'.mp
    (Receiver.chunkOf_chunkFrame x (startChunk x.metadata))
  obtain ⟨item', hitem'⟩ := Option.ne_none_iff_exists'.mp
    (Receiver.chunkOf_chunkFrame x (startChunk x.metadata + 1))
  obtain ⟨hnum, hopen⟩ :=
    (Receiver.Genuine.start x existing).open_chunkFrame (by omega) hitem'
  have hfirst := Receiver.take_one (r := Receiver.State.start x.key x.metadata existing) rfl rfl rfl
    hfit hitem
  have hsecond := Receiver.take_one (r := { Receiver.State.start x.key x.metadata existing with
    decrypting := [] ++ [item] }) rfl rfl rfl hfit' hitem'
  obtain ⟨r, hjoin, hpc, -, -, hstored⟩ := Receiver.join_one (r :=
    { Receiver.State.start x.key x.metadata existing with decrypting := [] ++ [item] ++ [item'] })
    item' rfl (by simp) hopen (by rw [hnum]; exact hd.placed.seekable htwo) ⟨rfl, rfl⟩
  have hack := Receiver.ack_joined hpc
  rw [hnum] at hack
  refine ⟨_, ((hfirst.trans hsecond).trans hjoin).trans hack, fun hst => ?_⟩
  rcases hstored _ hst with hbefore | heq
  · rcases hbefore with hlt | hpos
    · exact absurd hlt (Nat.not_lt_zero _)
    · exact absurd hpos (Nat.lt_irrefl 0)
  · omega

/-- The steps of a run without faults in which nobody hangs up and the tasks keep to the order. -/
def Receiver.orderly (r : Receiver.State C) (b : Receiver.Act C) : Prop :=
  Receiver.quiet r b ∧ r.inOrder b

theorem Receiver.orderly_of_incoming {r : Receiver.State C} {b : Receiver.Act C}
    (h : b.incoming = true) : Receiver.orderly r b := by
  refine ⟨Receiver.quiet_of_incoming h, ?_⟩
  cases b <;> trivial

/-- The first chunk may be acknowledged in its turn. -/
theorem Receiver.ack_first {x : Job C} (hd : Deliverable x) (existing : Bytes) :
    ∃ r, (receiver C).Trace Receiver.orderly (Receiver.State.start x.key x.metadata existing)
      [x.chunkFrame (startChunk x.metadata)] [Receiver.ackFrame (startChunk x.metadata)] r ∧
      ∀ j, r.stored j → j = startChunk x.metadata := by
  have hlt := startChunk_lt hd
  have hsmall := hd.small
  obtain ⟨item, hitem⟩ := Option.ne_none_iff_exists'.mp
    (Receiver.chunkOf_chunkFrame x (startChunk x.metadata))
  obtain ⟨hnum, hopen⟩ :=
    (Receiver.Genuine.start x existing).open_chunkFrame (by omega) hitem
  have hspawn := Receiver.spawn_one (r := Receiver.State.start x.key x.metadata existing) rfl rfl rfl
    (hd.fits _ (Nat.le_refl _) hlt) hitem
  obtain ⟨r, hwork, hpc, hfin, hcalm, halike, hstored⟩ := Receiver.work_one (r :=
    { Receiver.State.start x.key x.metadata existing with decrypting := [] ++ [item] })
    item (by simp) hopen (by rw [hnum]; exact hd.placed.seekable hlt) ⟨rfl, rfl⟩
  have hcount : r.chunksReceived = item.1 := by
    rw [halike.chunksReceived, hnum]
    show (if x.metadata.isResume then startChunk x.metadata else 0) = _
    split
    · rfl
    · next hnot => exact (hd.resume (Bool.eq_false_iff.mpr hnot)).symm
  have hready : (receiver C).Trace Receiver.orderly _ _ _ r :=
    (hspawn.trans hwork).weaken fun _ _ hb _ => Receiver.orderly_of_incoming hb
  have hturn : Receiver.orderly r (.join item.1) := ⟨⟨rfl, rfl⟩, hcount.symm⟩
  have hjoin := hready.snoc hturn (Receiver.step_join hpc hfin)
  obtain ⟨hstep, hsend⟩ := Receiver.step_ack
    (r := { r with finished := r.finished.erase item.1, pc := .ack item.1 }) rfl
  have hlanded : ({ r with finished := r.finished.erase item.1, pc := .ack item.1 } :
      Receiver.State C).inOrder .ack := by
    intro index w _ hw
    cases hcalm.1.symm.trans hw
  have hack := hjoin.snoc ⟨⟨rfl, rfl⟩, hlanded⟩ hstep
  rw [hsend, hnum] at hack
  refine ⟨_, hack, fun j hj => ?_⟩
  rcases hstored j hj with hbefore | heq
  · rcases hbefore with hlt | hpos
    · exact absurd hlt (Nat.not_lt_zero _)
    · exact absurd hpos (Nat.lt_irrefl 0)
  · exact heq.trans hnum

/-- The length that an acknowledgement stands for is not zero. -/
theorem Sender.lenToInc_pos {s : Sender.State C} (h : 0 < s.job.metadata.chunkSize) :
    0 < s.lenToInc := by
  unfold State.lenToInc
  dsimp only
  split_ifs <;> omega

/-- An acknowledgement is counted whatever its number is. -/
theorem Sender.count_one {s : Sender.State C} {f : Frame C} (hpc : s.pc = .select)
    (hread : s.reading = true) (hacks : s.acks = []) (hfit : f.oversized = false)
    (htag : f.tag = tagChunkAck) :
    ∃ s', (sender C).Trace Sender.quiet s [f] [] s' ∧ s'.nextToAck = s.nextToAck + 1 ∧
      s'.progress = some (s.bytesSent + s.lenToInc) := by
  have htake : (sender C).step s (.readAck f) = some { s with acks := [f] } := by
    refine guarded_eq_some.mpr ⟨⟨hread, by rw [hacks]; exact Nat.zero_le _⟩, ?_⟩
    have hnext : (if f.oversized then readFailed "Oversized message".toList else f) = f :=
      if_neg (by rw [hfit]; exact Bool.false_ne_true)
    rw [hnext, hfit, hacks, Bool.not_false, ← hread]
    rfl
  have hcount : (sender C).step { s with acks := [f] } (.ack f) = some
      { s with acks := [], bytesSent := s.bytesSent + s.lenToInc,
               progress := some (s.bytesSent + s.lenToInc), nextToAck := s.nextToAck + 1,
               pc := if s.nextToAck + 1 = s.job.metadata.totalChunks then .acked else .check } :=
    guarded_eq_some.mpr ⟨⟨hpc, rfl, htag⟩, rfl⟩
  have hstart : (sender C).Trace Sender.quiet s [] [] s := .nil
  exact ⟨_, (hstart.snoc ⟨rfl, rfl⟩ htake).snoc ⟨rfl, rfl⟩ hcount, rfl, rfl⟩

/-- Where two chunks are to be sent, some run without faults records what has not been
written. -/
theorem exists_not_durable {x : Job C} (hd : Deliverable x)
    (hpart : Partition x.source x.metadata) (existing : Bytes)
    (htwo : startChunk x.metadata + 1 < x.metadata.totalChunks) :
    ∃ n, ((sender C).link (receiver C)).Reach cleanOk (x.net existing) n ∧ ¬ Durable x n := by
  obtain ⟨r, hack, hmiss⟩ := Receiver.ack_second hd existing htwo
  have hfirst := Sender.send_one (x := x) (f := 0) (Nat.le_refl _)
    (by rw [Nat.sub_self]; decide) (by decide) (by omega)
  have hsecond := Sender.send_one (x := x) (f := 1) (Nat.le_succ (startChunk x.metadata))
    (by rw [Nat.succ_sub (Nat.le_refl _), Nat.sub_self]; decide) (by decide) htwo
  have hsend := reach_of_trace_left (Q := receiver C) cleanOk (fun n a ha => ha.1)
    (fun s a ha => ha.2) (hfirst.trans hsecond) (Receiver.State.start x.key x.metadata existing) [] []
  have hrecv := reach_of_trace_right (P := sender C) cleanOk (fun n b hb => hb.1)
    (fun t b hb => hb.2) hack (Sender.between x (startChunk x.metadata + 1 + 1) (0 + 1 + 1)) [] []
  obtain ⟨s, hcount, -, hprog⟩ := Sender.count_one
    (s := Sender.between x (startChunk x.metadata + 1 + 1) (0 + 1 + 1))
    (f := Receiver.ackFrame (startChunk x.metadata + 1)) rfl rfl rfl rfl rfl
  have hack' := reach_of_trace_left (Q := receiver C) cleanOk (fun n a ha => ha.1)
    (fun s a ha => ha.2) hcount r [] []
  refine ⟨_, (hsend.trans hrecv).trans hack', fun hdur => ?_⟩
  -- the first byte after the offset is in the chunk that has not been written
  have hoff : startChunk x.metadata = x.metadata.resumeOffset / x.metadata.chunkSize := by
    unfold startChunk at htwo ⊢
    omega
  have hlt : x.metadata.resumeOffset < x.source.length := by
    have hle := hpart.mul_le htwo
    have := Nat.lt_div_mul_add (a := x.metadata.resumeOffset) hpart.pos
    rw [← hoff] at this
    rw [Nat.succ_mul] at hle
    omega
  have hpos : 0 < (Sender.between x (startChunk x.metadata + 1 + 1) (0 + 1 + 1)).lenToInc :=
    Sender.lenToInc_pos hpart.pos
  have hwritten := (hdur _ hprog x.metadata.resumeOffset (Nat.lt_add_of_pos_right hpos) hlt).1
  rcases hwritten with hbefore | hstored
  · exact absurd hbefore (Nat.lt_irrefl _)
  · rw [← hoff] at hstored
    exact hmiss hstored

/-- The first chunk is sent, written, acknowledged and counted. -/
theorem exists_counted {x : Job C} (hd : Deliverable x) (existing : Bytes) :
    ∃ n, ((sender C).link (receiver C)).Reach (fun n a => cleanOk n a ∧ inOrder n a)
        (x.net existing) n ∧ n.left.nextToAck = startChunk x.metadata + 1 ∧
      n.left.progress = some (x.metadata.resumeOffset + (Sender.State.start x).lenToInc) ∧
      ∀ j, n.right.stored j → j = startChunk x.metadata := by
  obtain ⟨r, hack, hstored⟩ := Receiver.ack_first hd existing
  have hout := Sender.send_one (x := x) (f := 0) (Nat.le_refl _)
    (by rw [Nat.sub_self]; decide) (by decide) (startChunk_lt hd)
  have hsend := reach_of_trace_left (Q := receiver C) (fun n a => cleanOk n a ∧ inOrder n a)
    (fun n a ha => ⟨ha.1, trivial⟩) (fun s a ha => ha.2) hout
    (Receiver.State.start x.key x.metadata existing) [] []
  have hrecv := reach_of_trace_right (P := sender C) (fun n a => cleanOk n a ∧ inOrder n a)
    (fun n b hb => ⟨hb.1.1, hb.2⟩) (fun t b hb => hb.1.2) hack
    (Sender.between x (startChunk x.metadata + 1) (0 + 1)) [] []
  obtain ⟨s, hcount, hnext, hprog⟩ := Sender.count_one
    (s := Sender.between x (startChunk x.metadata + 1) (0 + 1))
    (f := Receiver.ackFrame (startChunk x.metadata)) rfl rfl rfl rfl rfl
  have hcounted := reach_of_trace_left (Q := receiver C) (fun n a => cleanOk n a ∧ inOrder n a)
    (fun n a ha => ⟨ha.1, trivial⟩) (fun s a ha => ha.2) hcount r [] []
  exact ⟨_, (hsend.trans hrecv).trans hcounted, hnext, hprog, hstored⟩

/-- Where the count of a resume does not begin with a chunk, an order of the tasks is not
enough. -/
theorem not_durable_of_not_aligned {x : Job C} (hd : Deliverable x)
    (hpart : Partition x.source x.metadata) (existing : Bytes) (halign : ¬ x.Aligned) :
    ∃ n, ((sender C).link (receiver C)).Reach (fun n a => cleanOk n a ∧ inOrder n a)
        (x.net existing) n ∧ ¬ Durable x n := by
  obtain ⟨n, hreach, -, hprog, hstored⟩ := exists_counted hd existing
  refine ⟨n, hreach, fun hdur => ?_⟩
  obtain ⟨hdvd, hlast⟩ := not_or.mp halign
  have hlt := startChunk_lt hd
  have hoff : startChunk x.metadata = x.metadata.resumeOffset / x.metadata.chunkSize := by
    unfold startChunk at hlast ⊢
    omega
  have hlen : (Sender.State.start x).lenToInc = x.metadata.chunkSize := by
    have hne : (Sender.State.start x).nextToAck ≠
        (Sender.State.start x).job.metadata.totalChunks - 1 := by
      show startChunk x.metadata ≠ x.metadata.totalChunks - 1
      omega
    unfold Sender.State.lenToInc
    rw [if_neg hne]
    exact if_neg hpart.pos.ne'
  -- the first byte of the next chunk has been counted
  have hmod := Nat.div_add_mod' x.metadata.resumeOffset x.metadata.chunkSize
  have hsmall := Nat.mod_lt x.metadata.resumeOffset hpart.pos
  have hpos : x.metadata.resumeOffset % x.metadata.chunkSize ≠ 0 := fun hzero =>
    hdvd (Nat.dvd_of_mod_eq_zero hzero)
  rw [← hoff] at hmod
  have hbegins : (startChunk x.metadata + 1) * x.metadata.chunkSize < x.source.length :=
    hpart.mul_lt (by omega)
  have hnext : (startChunk x.metadata + 1) * x.metadata.chunkSize / x.metadata.chunkSize =
      startChunk x.metadata + 1 := Nat.mul_div_cancel _ hpart.pos
  rcases (hdur _ hprog _ (by rw [hlen, Nat.succ_mul]; omega) hbegins).1 with hbefore | hst
  · rw [Nat.succ_mul] at hbefore
    omega
  · have := hstored _ hst
    omega

end EarlyAck

/-- One of the two chunks of the sample is sent, written and counted. -/
theorem sample_durable_while_in_order :
    ∃ n, ((sender .plain).link (receiver .plain)).Reach inOrder ((sampleJob 0).net []) n ∧
      n.left.nextToAck = 1 ∧ n.left.progress ≠ none ∧ Durable (sampleJob 0) n ∧
      ∀ b, n.left.progress = some b → ∀ p < (sampleJob 0).source.length,
        n.right.file.content[p]? ≠ (sampleJob 0).source[p]? →
          startChunk { (sampleJob 0).metadata with resumeOffset := b } ≤
            p / (sampleJob 0).metadata.chunkSize := by
  have hzero : startChunk (sampleJob 0).metadata = 0 := by
    simp [startChunk, sampleJob, transferJob, sendMetadata]
  obtain ⟨n, hreach, hnext, hprog, -⟩ :=
    exists_counted (deliverable_sampleJob 0) []
  have hreach : ((sender .plain).link (receiver .plain)).Reach inOrder ((sampleJob 0).net []) n :=
    hreach.mono fun _ _ ha => ha.2
  refine ⟨n, hreach, by rw [hnext, hzero], by rw [hprog]; simp, ?_⟩
  exact durable_while_in_order (partition_sampleJob 0) (fits_sampleJob 0).small (.inl ⟨0, rfl⟩)
    (fun _ => hzero) (fun p hp _ => absurd hp (Nat.not_lt_zero p)) hreach

/-- The second of the two chunks is acknowledged first. -/
theorem sample_not_durable :
    ∃ n, ((sender .plain).link (receiver .plain)).Reach cleanOk ((sampleJob 0).net []) n ∧
      ¬ Durable (sampleJob 0) n := by
  have hzero : startChunk (sampleJob 0).metadata = 0 := by
    simp [startChunk, sampleJob, transferJob, sendMetadata]
  have htwo : startChunk (sampleJob 0).metadata + 1 < (sampleJob 0).metadata.totalChunks := by
    rw [totalChunks_sampleJob, hzero]
    decide
  exact exists_not_durable (deliverable_sampleJob 0) (partition_sampleJob 0) [] htwo

end P2PTransfer.Cli
