import P2PTransfer.Cli.Numbers

/-!
# A transfer on the command line

`cmd_send` against `ReceiverHandler::run`. In a run without faults both functions come to
their end, whatever order the tasks of both sides finish in: every chunk from the first to
send on is written at its place, and the verdict is the one of a hasher that counts from
zero.

## Main definitions

- `Job.net` — the two loops after the reply
- `Deliverable` — the frames of a job reach the receiver
- `Sends`, `Receives` — what is known of a side by its history
-/

namespace P2PTransfer.Cli

open Transition Party

variable {C : Primitives}

/-- The loops after the reply, over what the output file holds. -/
def Job.net (x : Job C) (existing : Bytes) :
    Net (Sender.State C) (Receiver.State C) (Frame C) where
  left := Sender.State.start x
  right := Receiver.State.start x.key x.metadata existing

/-- Neither side meets a fault, and nobody pauses. -/
def cleanOk : Net (Sender.State C) (Receiver.State C) (Frame C) →
    Sender.Act C ⊕ Receiver.Act C → Prop :=
  eachOk (fun a => a.clean = true) (fun b => b.clean = true)

/-- The frames from the first to send on carry their numbers and are small enough for the
receiver. -/
structure Job.Fits (x : Job C) : Prop where
  small : x.metadata.totalChunks ≤ 2 ^ 32
  fits : ∀ j, startChunk x.metadata ≤ j → j < x.metadata.totalChunks →
    (x.chunkFrame j).oversized = false

/-- Without compression it is enough that a chunk leaves room for its header and its tag. -/
theorem Job.fits_of_level_le {x : Job C} (hdesc : Describes x.source x.metadata)
    (hlevel : x.level ≤ 0) (hsmall : x.metadata.totalChunks ≤ 2 ^ 32)
    (hsize : (Chunker.new x.metadata.chunkSize x.metadata.fileSize).chunkSize + 22 ≤
      maxPayloadSize) : x.Fits where
  small := hsmall
  fits j _ _ := by
    have hnone : x.compressed (prepareChunk x.source x.metadata j) = none :=
      if_neg fun h => absurd h.1 (not_lt.mpr hlevel)
    have hlen := hdesc.length_prepareChunk_le j
    simp only [Job.chunkFrame, Job.frame, hnone, Frame.oversized, Frame.size, Frame.ofChunk,
      C.encrypt_length, decide_eq_false_iff_not]
    unfold tagLen
    omega

/-- The metadata is that of the source, and the frames reach the receiver and the file. -/
structure Deliverable (x : Job C) : Prop extends x.Fits where
  describes : Describes x.source x.metadata
  checksum : x.metadata.checksum = C.blake3 x.source
  resume : x.metadata.isResume = false → startChunk x.metadata = 0
  placed : x.Placed

/-- What is known of the sender by its history. -/
structure Sends (x : Job C) (i o : List (Frame C)) (s : Sender.State C) : Prop where
  job : s.job = x
  genuine : Sender.Genuine o s
  accounts : Sender.Accounts o s
  follows : Sender.Follows i s

/-- What is known of the receiver by its history. -/
structure Receives (x : Job C) (i o : List (Frame C)) (r : Receiver.State C) : Prop where
  genuine : Receiver.Genuine x r
  accounts : ∃ m acked, Receiver.Accounts x m acked i o r

theorem startChunk_lt {x : Job C} (h : Deliverable x) :
    startChunk x.metadata < x.metadata.totalChunks := by
  have := h.describes.totalChunks_pos
  unfold startChunk
  omega

section Histories

variable {x : Job C} {iL oL iR oR : List (Frame C)} {s : Sender.State C} {r : Receiver.State C}

/-- What the sender puts next on the stream is the chunk after those that have been taken. -/
theorem Sends.next_frame (h : Sends x iL oL s) {f : Frame C} {rest : List (Frame C)}
    (hout : oL = iR ++ f :: rest) : f = x.chunkFrame (startChunk x.metadata + iR.length) ∧
      startChunk x.metadata + iR.length < x.metadata.totalChunks := by
  obtain ⟨rfl, hg, hacc, -⟩ := h
  have hget : oL[iR.length]? = some f := by
    rw [hout, List.getElem?_append_right (Nat.le_refl _), Nat.sub_self]
    rfl
  have hlt := (List.getElem?_eq_some_iff.mp hget).1
  rw [hacc.out, List.length_map, List.length_range'] at hlt
  rw [hacc.out, List.getElem?_map, List.getElem?_range' hlt, Nat.one_mul] at hget
  have := hacc.sent
  have := hg.next
  exact ⟨(Option.some.inj hget).symm, by omega⟩

theorem Sends.length_eq (h : Sends x iL oL s) :
    oL.length = s.bufferedFrames.next - startChunk x.metadata := by
  rw [h.accounts.out, List.length_map, List.length_range', h.job]

/-- The acknowledgements that have been sent are at most those that are due. -/
theorem acked_le {m : Nat} {acked : List Nat} (h : Receiver.Accounts x m acked iR oR r) :
    startChunk x.metadata + acked.length ≤ x.metadata.totalChunks := by
  rw [← h.count]
  by_cases hp : r.pc = .verify ∨ r.pc.ended
  · exact (h.late hp).le
  · obtain ⟨hverify, hended⟩ := not_or.mp hp
    exact (h.looping hverify (Bool.eq_false_iff.mpr hended)).le

theorem acked_of_ended {m : Nat} {acked : List Nat} (h : Receiver.Accounts x m acked iR oR r)
    (hp : r.pc.ended) : acked.length = Job.due x ∧ oR[Job.due x]? = some r.verdict := by
  have hlen : acked.length = Job.due x := by
    have := h.count
    have := h.late (.inr hp)
    unfold Job.due
    omega
  refine ⟨hlen, ?_⟩
  rw [h.out, if_pos hp, ← hlen, List.getElem?_append_right (by rw [List.length_map]),
    List.length_map, Nat.sub_self]
  rfl

/-- A receiver that has answered more often than it had to acknowledge is through. -/
theorem ended_of_length {m : Nat} {acked : List Nat} (h : Receiver.Accounts x m acked iR oR r)
    (hlen : Job.due x < oR.length) : r.pc.ended := by
  by_contra hp
  have hle := acked_le h
  rw [h.out, if_neg hp, List.append_nil, List.length_map] at hlen
  unfold Job.due at hlen
  omega

/-- What the sender takes are the acknowledgements and after them the verdict. -/
theorem answered {m : Nat} {acked : List Nat} (h : Receiver.Accounts x m acked iR oR r)
    {i : List (Frame C)} (hpre : i <+: oR) : Sender.Answered x i where
  small f hf := by
    have hmem := hpre.mem hf
    rw [h.out] at hmem
    rcases List.mem_append.mp hmem with hmem | hmem
    · obtain ⟨j, -, rfl⟩ := List.mem_map.mp hmem
      rfl
    · split at hmem
      · rw [List.mem_singleton.mp hmem, Receiver.State.verdict]
        split <;> rfl
      · cases hmem
  acks n f hn hf := by
    have hget : oR[n]? = some f := by
      obtain ⟨rest, rfl⟩ := hpre
      rw [List.getElem?_append_left (List.getElem?_eq_some_iff.mp hf).1, hf]
    by_cases hlt : n < acked.length
    · rw [h.out, List.getElem?_append_left (by rwa [List.length_map]), List.getElem?_map] at hget
      obtain ⟨j, -, rfl⟩ := Option.map_eq_some_iff.mp hget
      rfl
    · -- the verdict comes only after all the acknowledgements
      exfalso
      have hp : r.pc.ended := by
        by_contra hp
        rw [h.out, if_neg hp, List.append_nil] at hget
        have := (List.getElem?_eq_some_iff.mp hget).1
        rw [List.length_map] at this
        exact hlt this
      rw [(acked_of_ended h hp).1] at hlt
      exact hlt hn

theorem Sends.start (hd : Deliverable x) : Sends x [] [] (Sender.State.start x) where
  job := rfl
  genuine := .start x
  accounts := .start x
  follows := .start (startChunk_lt hd)

theorem Receives.start (hd : Deliverable x) (existing : Bytes) :
    Receives x [] [] (Receiver.State.start x.key x.metadata existing) where
  genuine := .start x existing
  accounts := ⟨0, [], .start existing (startChunk_lt hd) hd.resume⟩

end Histories

/-- **Histories.** In a run without faults both sides keep to what is known of them. -/
theorem histories {x : Job C} {existing : Bytes} {oL oR : List (Frame C)}
    {n : Net (Sender.State C) (Receiver.State C) (Frame C)} (hd : Deliverable x)
    (h : LinkRun (sender C) (receiver C) cleanOk (Sender.State.start x)
      (Receiver.State.start x.key x.metadata existing) oL oR n) :
    ∃ iL iR, Sends x iL oL n.left ∧ Receives x iR oR n.right ∧ oL = iR ++ n.toRight ∧
      oR = iL ++ n.toLeft := by
  refine h.linked (Sends.start hd) (Receives.start hd existing) ?_ ?_
  · intro iL oL iR oR n a s hs hr hout hin hok hq hh hstep
    obtain ⟨m, acked, hacc⟩ := hr.accounts
    have hpre : iL ++ (sender C).recvs a <+: oR := by
      obtain ⟨rest, hrest⟩ := hq
      exact ⟨rest, by rw [List.append_assoc, hrest, hin]⟩
    refine ⟨(Sender.step_job hstep).trans hs.job, hs.genuine.step hstep,
      hs.accounts.step hs.genuine hok hstep, hs.follows.step hok ?_ (fun hhang => ?_) hstep⟩
    · rw [hs.job]
      exact answered hacc hpre
    · -- the receiver hangs up only after its verdict
      obtain ⟨hnil, hclosed⟩ := hh hhang
      have hret : n.right.pc = .returned := by simpa [receiver] using hclosed
      have hget := (acked_of_ended hacc (by rw [hret]; rfl)).2
      rw [hin, hnil, List.append_nil] at hget
      rw [hs.job]
      exact (List.getElem?_eq_some_iff.mp hget).1
  · intro iL oL iR oR n b t hs hr hout hin hok hq hh hstep
    obtain ⟨m, acked, hacc⟩ := hr.accounts
    have hnext : ∀ f ∈ (receiver C).recvs b,
        f = x.chunkFrame (startChunk x.metadata + iR.length) ∧
          startChunk x.metadata + iR.length < x.metadata.totalChunks ∧ f.oversized = false := by
      intro f hf
      have hrec : (receiver C).recvs b = [f] := by
        cases b with
        | readFrame g => rw [List.mem_singleton.mp hf]; rfl
        | _ => cases hf
      obtain ⟨rest, hrest⟩ := hq
      rw [hrec, List.singleton_append] at hrest
      obtain ⟨hframe, hlt⟩ := hs.next_frame (hout.trans (by rw [← hrest]))
      exact ⟨hframe, hlt, hframe ▸ hd.fits _ (Nat.le_add_right _ _) hlt⟩
    refine ⟨hr.genuine.step hd.small (fun f hf => ?_) hstep,
      hacc.step hr.genuine hd.small hd.placed hok hnext (fun hhang => ?_) hstep⟩
    · obtain ⟨hframe, hlt, -⟩ := hnext f hf
      exact ⟨_, hlt, hframe⟩
    · -- the sender hangs up only after the verdict
      obtain ⟨-, hclosed⟩ := hh hhang
      obtain ⟨f, hf, -⟩ := hs.follows.returned (by simpa [sender] using hclosed)
      rw [hs.job] at hf
      apply ended_of_length hacc
      rw [hin, List.length_append]
      exact Nat.lt_of_lt_of_le (List.getElem?_eq_some_iff.mp hf).1 (Nat.le_add_right _ _)

section Stuck

variable {x : Job C} {iL oL iR oR : List (Frame C)}
  {n : Net (Sender.State C) (Receiver.State C) (Frame C)}

/-- How many acknowledgements a sender that still reads has counted. -/
theorem Sends.used_le {s : Sender.State C} (h : Sends x iL oL s) (hp : s.pc ≠ .returned)
    (hr : s.reading = true) : ∃ used, iL = used ++ s.acks ∧
      startChunk x.metadata + used.length = s.nextToAck := by
  obtain ⟨used, last, hq, hlen, hlast, -⟩ := h.follows.queue hp
  rw [hlast hr, List.append_nil] at hq
  have hfirst := h.follows.first
  rw [h.job] at hlen hfirst
  exact ⟨used, hq, by omega⟩

/-- A sender that can do nothing has counted all the answers. -/
theorem Sends.counted (h : Sends x iL oL n.left) (hp : n.left.pc ≠ .returned)
    (hin : oR = iL ++ n.toLeft)
    (hle : n.left.nextToAck ≤ n.left.bufferedFrames.next)
    (stuck : ((sender C).link (receiver C)).Stuck cleanOk n) :
    startChunk x.metadata + oR.length = n.left.nextToAck ∧
      (n.left.pc = .select → n.left.nextToAck + windowSize ≤ n.left.bufferedFrames.next ∨
        n.left.bufferedFrames.next = x.metadata.totalChunks) ∧
      (n.left.pc = .verdict ∨ n.left.pc = .select) := by
  obtain ⟨hacks, hsel, hpc⟩ := Sender.drained h.follows h.accounts h.genuine hp hle
    (stuck_left stuck)
  have hr := h.follows.reading_of_empty hp (h.follows.nextToAck_le hp) hacks
  have hempty : n.toLeft = [] := stuck_toLeft stuck (Sender.waiting hr hacks).takes
  obtain ⟨used, hused, hlen⟩ := h.used_le hp hr
  rw [hacks, List.append_nil] at hused
  rw [hin, hempty, List.append_nil, hused]
  exact ⟨hlen, h.job ▸ hsel, hpc⟩

/-- A sender that waits for its verdict meets a receiver that has not given it. -/
theorem sender_returned (hs : Sends x iL oL n.left) (hr : Receives x iR oR n.right)
    (hout : oL = iR ++ n.toRight) (hin : oR = iL ++ n.toLeft) (hc : n.right.pc = .returned)
    (stuck : ((sender C).link (receiver C)).Stuck cleanOk n) : n.left.pc = .returned := by
  by_contra hp
  obtain ⟨m, acked, hacc⟩ := hr.accounts
  have hended : n.right.pc.ended := by rw [hc]; rfl
  have hget := (acked_of_ended hacc hended).2
  have hlong := (List.getElem?_eq_some_iff.mp hget).1
  have hle := hs.follows.nextToAck_le hp
  rw [hs.job] at hle
  have hsent : x.metadata.totalChunks ≤ n.left.bufferedFrames.next := by
    have htaken := (hacc.all_acked hended).2.2
    have hlen := hs.length_eq
    have hfirst := hs.accounts.first
    rw [hs.job] at hfirst
    rw [hout, List.length_append] at hlen
    omega
  obtain ⟨hcount, -⟩ := hs.counted hp hin (hle.trans hsent) stuck
  unfold Job.due at hlong
  omega

/-- A receiver that waits for a chunk meets a sender that has one to send. -/
theorem receiver_returned (hs : Sends x iL oL n.left) (hr : Receives x iR oR n.right)
    (hout : oL = iR ++ n.toRight) (hin : oR = iL ++ n.toLeft)
    (stuck : ((sender C).link (receiver C)).Stuck cleanOk n) : n.right.pc = .returned := by
  by_contra hc
  obtain ⟨m, acked, hacc⟩ := hr.accounts
  obtain ⟨hsel, hchannel, hfin, hset⟩ := Receiver.drained (stuck_right stuck) hacc.clear hc
  have hloop : n.right.pc.ended = false := by rw [hsel]; rfl
  have hnot : ¬ n.right.pc.ended = true := Bool.not_eq_true _ ▸ hloop
  obtain ⟨hread, hqueue⟩ := hacc.queue hloop
  have hempty : n.toRight = [] := stuck_toRight stuck fun f =>
    ⟨.readFrame f, _, rfl, rfl, rfl, guarded_eq_some.mpr ⟨⟨hread, by simp [hchannel]⟩, rfl⟩⟩
  -- everything that was sent has been acknowledged
  have hacked : acked.length = iR.length := by
    have hlen := length_of_tally (hacc.places_of_settled hset (by rw [hsel]; rfl))
    rw [hfin, List.nil_append] at hlen
    rw [hchannel, eq_comm, List.map_eq_nil_iff, List.drop_eq_nil_iff] at hqueue
    have := hacc.taken
    omega
  have hsent := hs.length_eq
  rw [hout, hempty, List.append_nil, ← hacked] at hsent
  have hanswers : oR.length = acked.length := by
    rw [hacc.out, if_neg hnot, List.append_nil, List.length_map]
  have hmore : startChunk x.metadata + acked.length < x.metadata.totalChunks := by
    rw [← hacc.count]
    exact hacc.looping (by simp [hsel]) hloop
  have hshort : ¬ Job.due x < iL.length := fun hlong => by
    rw [hin, List.length_append] at hanswers
    unfold Job.due at hlong
    omega
  have hp : n.left.pc ≠ .returned := fun hp => by
    obtain ⟨f, hf, -⟩ := hs.follows.returned hp
    rw [hs.job] at hf
    exact hshort (List.getElem?_eq_some_iff.mp hf).1
  have hreading : n.left.reading = true := by
    by_contra hr
    have := hs.follows.ended (Bool.eq_false_iff.mpr hr)
    rw [hs.job] at this
    exact hshort this
  have hfirst := hs.accounts.first
  rw [hs.job] at hfirst
  have hle : n.left.nextToAck ≤ n.left.bufferedFrames.next := by
    obtain ⟨used, hused, hlen⟩ := hs.used_le hp hreading
    rw [hin, hused, List.length_append, List.length_append] at hanswers
    omega
  obtain ⟨hcount, hwindow, hpc⟩ := hs.counted hp hin hle stuck
  rcases hpc with hpc | hpc
  · have hlate := hs.follows.late (.inr hpc)
    rw [hs.job] at hlate
    omega
  · rcases hwindow hpc with hfull | hall
    · unfold windowSize at hfull
      omega
    · omega

end Stuck

/-- In every run that loses no write, with or without other faults, the chunks that travel and
that are written are those of the source. -/
theorem kept {x : Job C} {existing : Bytes} {oL oR : List (Frame C)}
    {ok : Net (Sender.State C) (Receiver.State C) (Frame C) →
      Sender.Act C ⊕ Receiver.Act C → Prop}
    {n : Net (Sender.State C) (Receiver.State C) (Frame C)}
    (hpart : Partition x.source x.metadata) (hsmall : x.metadata.totalChunks ≤ 2 ^ 32)
    (hlossless : ∀ n b, ok n (.inr b) → b.lossless)
    (h : LinkRun (sender C) (receiver C) ok (Sender.State.start x)
      (Receiver.State.start x.key x.metadata existing) oL oR n) :
    (n.left.job = x ∧ Sender.Genuine oL n.left) ∧ Receiver.Genuine x n.right ∧
      Receiver.Stores x (fun p => existing[p]? = x.source[p]?) n.right := by
  obtain ⟨iL, iR, hs, hr, -⟩ := h.linked
    (I := fun _ o s => s.job = x ∧ Sender.Genuine o s)
    (J := fun _ _ r => Receiver.Genuine x r ∧
      Receiver.Stores x (fun p => existing[p]? = x.source[p]?) r)
    ⟨rfl, .start x⟩ ⟨.start x existing, .start hpart existing⟩
    (fun iL oL iR oR n a s hs _ _ _ _ _ _ hstep =>
      ⟨(Sender.step_job hstep).trans hs.1, hs.2.step hstep⟩)
    (fun iL oL iR oR n b t hs hr hout _ hok hq _ hstep => by
      refine ⟨hr.1.step hsmall (fun f hf => ?_) hstep,
        hr.2.step hr.1 hpart (Job.placed_of_partition hpart hsmall) (hlossless _ _ hok) hstep⟩
      have hmem : f ∈ oL := by
        rw [hout]
        exact List.mem_append_right _ (hq.mem hf)
      rw [← hs.1]
      exact hs.2.out f hmem)
  exact ⟨hs, hr⟩

theorem lossless_of_cleanOk (n : Net (Sender.State C) (Receiver.State C) (Frame C))
    (b : Receiver.Act C) (h : cleanOk n (.inr b)) : b.lossless :=
  Receiver.Act.lossless_of_clean h

/-- Once every chunk from the first to send on has been stored, the file is given the source, if
it was so before the first of them. -/
theorem file_of_stored {x : Job C} {existing : Bytes} {r : Receiver.State C}
    (hpart : Partition x.source x.metadata)
    (hbase : ∀ p < x.source.length, p / x.metadata.chunkSize < startChunk x.metadata →
      existing[p]? = x.source[p]?)
    (hst : Receiver.Stores x (fun p => existing[p]? = x.source[p]?) r)
    (hall : ∀ j, startChunk x.metadata ≤ j → j < x.metadata.totalChunks → r.stored j) :
    r.file.given = x.source := by
  apply List.ext_getElem?
  intro p
  by_cases hlt : p < x.source.length
  · apply hst.file p hlt
    by_cases hk : p / x.metadata.chunkSize < startChunk x.metadata
    · exact .inl (hbase p hlt hk)
    · exact .inr (hall _ (Nat.not_lt.mp hk) (hpart.div_lt hlt))
  · have hle := Nat.not_lt.mp hlt
    rw [List.getElem?_eq_none hle,
      List.getElem?_eq_none (by rw [hst.disk.length_given]; exact hle)]

/-- The answer of the hasher, and what `cmd_send` makes of it. -/
theorem outcome_of_ended {x : Job C} {iL oL iR oR : List (Frame C)} {s : Sender.State C}
    {r : Receiver.State C} {rest : List (Frame C)} (hd : Deliverable x) (hs : Sends x iL oL s)
    (hr : Receives x iR oR r) (hin : oR = iL ++ rest) (hp : s.pc = .returned)
    (hc : r.pc.ended) :
    (s.result = some (.ok .verified) ↔ startChunk x.metadata = 0) ∧
      r.isValid = some (decide (startChunk x.metadata = 0)) := by
  obtain ⟨m, acked, hacc⟩ := hr.accounts
  have hvalid := hacc.valid_iff hc hr.genuine.metadata hd.describes hd.checksum
  obtain ⟨f, hf, hres⟩ := hs.follows.returned hp
  rw [hs.job] at hf
  have hverdict := (acked_of_ended hacc hc).2
  rw [hin, List.getElem?_append_left (List.getElem?_eq_some_iff.mp hf).1, hf] at hverdict
  obtain rfl := Option.some.inj hverdict
  constructor
  · rw [hres, ← hvalid, Receiver.State.verdict, Sender.State.outcome, hs.job, hr.genuine.metadata]
    cases r.valid with
    | true => simp
    | false =>
      have htag : (Frame.ofText tagError "Checksum mismatch".toList : Frame C).tag = tagError := rfl
      rw [if_neg Bool.false_ne_true, htag, if_neg (by decide : ¬ tagError = tagComplete), if_pos rfl]
      simp
  · rw [(hacc.ended hc).2, Option.some.injEq, ← Bool.coe_iff_coe, hvalid, decide_eq_true_eq]

/-- **Outcome.** Both loops come to their end, every chunk from the first to send on has then
been stored and nothing is on its way to the disk, and they succeed exactly when that is the first
of all. -/
theorem endsIn_outcome {x : Job C} (hd : Deliverable x) (existing : Bytes) :
    ((sender C).link (receiver C)).EndsIn cleanOk (fun n =>
      (n.left.result = some (.ok .verified) ↔ startChunk x.metadata = 0) ∧
        n.right.isValid = some (decide (startChunk x.metadata = 0)) ∧
        n.right.file.inflight = none ∧
        ∀ j, startChunk x.metadata ≤ j → j < x.metadata.totalChunks → n.right.stored j)
      (x.net existing) := by
  refine Machine.endsIn_of_rank (fun n => ∃ oL oR, LinkRun (sender C) (receiver C) cleanOk
      (Sender.State.start x) (Receiver.State.start x.key x.metadata existing) oL oR n)
    (linkRank Sender.State.rank Receiver.State.rank Frame.weight)
    (fun n a n' hn ho hs => LinkRun.snoc hn ho hs) ?_ ?_ ⟨[], [], .nil⟩
  · rintro n a n' ⟨oL, oR, hrun⟩ ho hs
    obtain ⟨iL, iR, hsends, -⟩ := histories hd hrun
    exact linkRank_lower (fun _ _ ho hs => Sender.rank_lower hsends.genuine ho hs)
      (fun _ _ ho hs => Receiver.rank_lower ho hs) ho hs
  · rintro n ⟨oL, oR, hrun⟩ stuck
    obtain ⟨iL, iR, hs, hr, hout, hin⟩ := histories hd hrun
    have hc := receiver_returned hs hr hout hin stuck
    have hp := sender_returned hs hr hout hin hc stuck
    have hended : n.right.pc.ended := by rw [hc]; rfl
    obtain ⟨hres, hvalid⟩ := outcome_of_ended hd hs hr hin hp hended
    obtain ⟨m, acked, hacc⟩ := hr.accounts
    exact ⟨hres, hvalid, Receiver.idle_of_stuck (stuck_right stuck),
      fun j hj hlt => hacc.stored_all hended hj hlt⟩

/-- The receiver has answered COMPLETE, and `cmd_send` has taken it. -/
def verified (n : Net (Sender.State C) (Receiver.State C) (Frame C)) : Prop :=
  n.left.result = some (.ok .verified) ∧ n.right.isValid = some true

/-- What is verified has been placed. -/
theorem placed_of_verified {x : Job C} {existing : Bytes}
    {n : Net (Sender.State C) (Receiver.State C) (Frame C)}
    (hcs : x.metadata.chunkSize < 2 ^ 64)
    (h : ((sender C).link (receiver C)).Reach cleanOk (x.net existing) n) (hv : verified n) :
    x.Placed := by
  obtain ⟨iL, oL, iR, oR, -, hr, -⟩ := link_traces (fun _ _ => True) (fun _ _ => True)
    (fun _ _ _ => trivial) (fun _ _ _ => trivial) h
  have hnumbers : Receiver.Numbers x.metadata (fun _ => True)
      (fun k => (seekStart (offsetOf x.metadata k)).isSome) n.right := by
    refine hr.invariant (I := fun _ _ r => Receiver.Numbers x.metadata (fun _ => True)
      (fun k => (seekStart (offsetOf x.metadata k)).isSome) r) (.start ..) ?_
    intro i o r b t hnum _ hs
    exact hnum.step (fun k _ hk => hk) (fun f _ _ item _ => trivial) hs
  exact Receiver.placed_of_valid hcs hnumbers hv.2

section Session

variable (C) (sessionId fileName outputDir : Text) (source noncePrefix : Bytes)
  (chunkSize resumeOffset : Nat) (level : Int) (likelyCompressed : Bool)
  (secret secret' : C.Secret) (fs : Files)

/-- What a call sends to a receiver with the other secret. -/
def transferJob : Job C where
  key := C.deriveKey secret (C.publicKey secret')
  metadata := sendMetadata C sessionId fileName source noncePrefix chunkSize resumeOffset
  source := source
  level := level
  likelyCompressed := likelyCompressed

/-- The runs of a transfer without faults end with it verified. -/
def Verifies : Prop :=
  Session.EndsIn
    (sendOpening C secret
      (sendMetadata C sessionId fileName source noncePrefix chunkSize resumeOffset) source level
      likelyCompressed)
    (handlerAdmission C secret' fs outputDir) (sender C) (receiver C) (fun a => a.clean)
    (fun b => b.clean) verified (Session.start C _ _)

theorem describes_transferJob :
    Describes (transferJob C sessionId fileName source noncePrefix chunkSize resumeOffset level
      likelyCompressed secret secret').source
    (transferJob C sessionId fileName source noncePrefix chunkSize resumeOffset level
      likelyCompressed secret secret').metadata :=
  ⟨rfl, rfl⟩

variable {C sessionId fileName source noncePrefix chunkSize resumeOffset level likelyCompressed
  secret secret'}

theorem partition_transferJob (h : chunkSize ≤ maxChunkSize ∨ source.length ≤ maxChunkSize) :
    Partition source (sendMetadata C sessionId fileName source noncePrefix chunkSize resumeOffset) where
  toDescribes := ⟨rfl, rfl⟩
  pos := (show Partition source (createMetadata C [] [] source chunkSize false) from
    .createMetadata h).pos
  chunkSize := (show Partition source (createMetadata C [] [] source chunkSize false) from
    .createMetadata h).chunkSize

theorem deliverable (h : (transferJob C sessionId fileName source noncePrefix chunkSize resumeOffset
    level likelyCompressed secret secret').Fits)
    (hplaced : (transferJob C sessionId fileName source noncePrefix chunkSize resumeOffset level
      likelyCompressed secret secret').Placed) :
    Deliverable (transferJob C sessionId fileName source noncePrefix chunkSize resumeOffset level
      likelyCompressed secret secret') where
  toFits := h
  describes := describes_transferJob ..
  checksum := rfl
  resume hr := by
    have hzero : ¬ 0 < resumeOffset := of_decide_eq_false hr
    have hoff : resumeOffset = 0 := by omega
    simp [transferJob, startChunk, sendMetadata, hoff]
  placed := hplaced

/-- `cmd_send` takes the reply of the handler for an acceptance. -/
theorem sendOpening_start (m : TransferMetadata C) (key : C.Key) :
    (sendOpening C secret m source level likelyCompressed).start key
      ((handlerAdmission C secret' fs outputDir).reply m) =
        some (Sender.State.start ⟨key, m, source, level, likelyCompressed⟩) := by
  have haccepts : (Frame.ofText tagMetadata "ACCEPT".toList : Frame C).accepts = true := by
    simp [Frame.accepts]
  simp only [sendOpening, handlerAdmission, haccepts, if_true]

end Session

/-- A source of one chunk of the smallest size and one byte. -/
def sampleSource : Bytes := List.replicate minChunkSize 1 ++ [2]

def sampleJob (resumeOffset : Nat) : Job .plain :=
  transferJob .plain [] ['f'] sampleSource [0, 0, 0, 0] 0 resumeOffset 0 false
    Primitives.plainSecret Primitives.plainSecret

theorem length_sampleSource : sampleSource.length = minChunkSize + 1 := by
  rw [sampleSource, List.length_append, List.length_replicate, List.length_singleton]

theorem totalChunks_sampleJob (resumeOffset : Nat) :
    (sampleJob resumeOffset).metadata.totalChunks = 2 := by
  simp only [sampleJob, transferJob, sendMetadata, createMetadata, length_sampleSource,
    Chunker.totalChunks, Chunker.new, minChunkSize, maxChunkSize]
  decide

theorem fits_sampleJob (resumeOffset : Nat) : (sampleJob resumeOffset).Fits := by
  refine Job.fits_of_level_le (describes_transferJob ..) (Int.le_refl 0) ?_ ?_
  · rw [totalChunks_sampleJob]
    decide
  · show max minChunkSize (min maxChunkSize (max 0 minChunkSize)) + 22 ≤ maxPayloadSize
    decide

theorem partition_sampleJob (resumeOffset : Nat) :
    Partition (sampleJob resumeOffset).source (sampleJob resumeOffset).metadata :=
  partition_transferJob (.inl (by decide))

theorem placed_sampleJob (resumeOffset : Nat) : (sampleJob resumeOffset).Placed :=
  Job.placed_of_partition (partition_sampleJob resumeOffset) (fits_sampleJob resumeOffset).small

theorem deliverable_sampleJob (resumeOffset : Nat) : Deliverable (sampleJob resumeOffset) :=
  deliverable (fits_sampleJob resumeOffset) (placed_sampleJob resumeOffset)

end P2PTransfer.Cli
