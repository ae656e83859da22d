import P2PTransfer.Cli.Disk
import P2PTransfer.Cli.Transfer

/-!
# A fresh transfer on the command line

Without a resume record `cmd_send` starts with the first chunk. Whatever the output file held,
and in whatever order the tasks of both sides end, the chunk frames go out in order, and the
verdict is COMPLETE over a file that is the source.

## Main definitions

- `Correct` — what a run of the session has done so far is right
- `delivered` — the transfer is verified, and the file is the source
-/

namespace P2PTransfer.Cli

open Transition Party

variable {C : Primitives}

/-- The transfer is verified, and the file is the source. -/
def delivered (source : Bytes) (n : Net (Sender.State C) (Receiver.State C) (Frame C)) : Prop :=
  verified n ∧ n.right.file.content = source

/-- The chunk frames that have been put on the stream. -/
def chunks (o : List (Frame C)) : List (Frame C) := o.filter fun f => f.tag = tagChunk

/-- The chunk frames on the stream are the first ones in order, each once, and a verdict is
COMPLETE, after all of them, over a file that has been given the source, and that is the source when
the call has returned. -/
structure Correct (x : Job C) (oL oR : List (Frame C))
    (n : Net (OpenPhase C (Sender.State C)) (AdmitPhase C (Receiver.State C)) (Frame C)) : Prop where
  chunks : ∃ k ≤ x.metadata.totalChunks, chunks oL = (List.range k).map x.chunkFrame
  verdict : ∀ f ∈ oR, f.tag = tagComplete ∨ f.tag = tagError →
    f = ⟨tagComplete, .digest (C.blake3 x.source)⟩ ∧
      Cli.chunks oL = (List.range x.metadata.totalChunks).map x.chunkFrame ∧
      ∃ r, n.right = .running r ∧ r.file.given = x.source ∧
        (r.pc = .returned → r.file.content = x.source)

theorem tag_chunkFrame (x : Job C) (j : Nat) : (x.chunkFrame j).tag = tagChunk := by
  unfold Job.chunkFrame Job.frame
  split <;> rfl

theorem chunks_map (x : Job C) (l : List Nat) : chunks (l.map x.chunkFrame) = l.map x.chunkFrame := by
  rw [chunks, List.filter_eq_self]
  intro f hf
  obtain ⟨j, -, rfl⟩ := List.mem_map.mp hf
  exact decide_eq_true (tag_chunkFrame x j)

section Loops

variable {x : Job C} {existing : Bytes} {oL oR : List (Frame C)}
  {n : Net (Sender.State C) (Receiver.State C) (Frame C)}

/-- The loops put the chunks on the stream in order. -/
theorem chunks_of_run (hd : Deliverable x) (hk : startChunk x.metadata = 0)
    (h : LinkRun (sender C) (receiver C) cleanOk (Sender.State.start x)
      (Receiver.State.start x.key x.metadata existing) oL oR n) :
    ∃ k ≤ x.metadata.totalChunks, oL = (List.range k).map x.chunkFrame := by
  obtain ⟨iL, iR, hs, -⟩ := histories hd h
  have hout := hs.accounts.out
  have hle := hs.accounts.sent.trans hs.genuine.next
  rw [hs.job] at hout hle
  rw [hk, Nat.sub_zero, ← List.range_eq_range'] at hout
  exact ⟨_, hle, hout⟩

/-- A receiver that has returned has flushed its file. -/
theorem flushed_of_run
    (h : LinkRun (sender C) (receiver C) cleanOk (Sender.State.start x)
      (Receiver.State.start x.key x.metadata existing) oL oR n) : Receiver.Flushed n.right := by
  obtain ⟨iL, iR, -, hflushed, -⟩ := h.linked (I := fun _ _ _ => True)
    (J := fun _ _ r => Receiver.Flushed r) trivial (.start x.key x.metadata existing)
    (fun _ _ _ _ _ _ _ _ _ _ _ _ _ _ _ => trivial)
    (fun iL oL iR oR n b t _ hr _ _ hok _ _ hstep => hr.step (lossless_of_cleanOk n b hok) hstep)
  exact hflushed

/-- A verdict comes when the receiver is through. -/
theorem verdict_of_run (hd : Deliverable x) (hk : startChunk x.metadata = 0)
    (hpart : Partition x.source x.metadata)
    (h : LinkRun (sender C) (receiver C) cleanOk (Sender.State.start x)
      (Receiver.State.start x.key x.metadata existing) oL oR n)
    {f : Frame C} (hf : f ∈ oR) (htag : f.tag = tagComplete ∨ f.tag = tagError) :
    f = ⟨tagComplete, .digest (C.blake3 x.source)⟩ ∧
      oL = (List.range x.metadata.totalChunks).map x.chunkFrame ∧
      n.right.file.given = x.source ∧
      (n.right.pc = .returned → n.right.file.content = x.source) := by
  obtain ⟨iL, iR, hs, hr, hout, -⟩ := histories hd h
  obtain ⟨m, acked, hacc⟩ := hr.accounts
  have hmem := hf
  rw [hacc.out] at hmem
  rcases List.mem_append.mp hmem with hmem | hmem
  · -- an acknowledgement is no verdict
    exfalso
    obtain ⟨j, -, rfl⟩ := List.mem_map.mp hmem
    exact absurd (show tagChunkAck = _ ∨ tagChunkAck = _ from htag) (by decide)
  · by_cases hp : n.right.pc.ended
    · rw [if_pos hp] at hmem
      have hvalid := (hacc.valid_iff hp hr.genuine.metadata hd.describes hd.checksum).mpr hk
      have htotal := (hacc.all_acked hp).2.2
      have hgiven : n.right.file.given = x.source := by
        obtain ⟨-, -, hst⟩ := kept hpart hd.small lossless_of_cleanOk h
        exact file_of_stored hpart (fun p _ hlt => absurd (hk ▸ hlt) (Nat.not_lt_zero _)) hst
          fun j hj hlt => hacc.stored_all hp hj hlt
      refine ⟨?_, ?_, hgiven, fun hret => ?_⟩
      · rw [List.mem_singleton.mp hmem, Receiver.State.verdict, if_pos hvalid, hr.genuine.metadata,
          hd.checksum]
      · obtain ⟨k, hle, hall⟩ := chunks_of_run hd hk h
        have hlen := congrArg List.length hall
        rw [hout, List.length_append, List.length_map, List.length_range] at hlen
        have hk' : k = x.metadata.totalChunks := by omega
        rw [hall, hk']
      · have hidle := (flushed_of_run h).idle (by rw [(hacc.ended hp).2]; simp) hret
        rw [← AsyncFile.given_of_idle hidle]
        exact hgiven
    · rw [if_neg hp] at hmem
      cases hmem

theorem endsIn_delivered (hd : Deliverable x) (hk : startChunk x.metadata = 0)
    (hpart : Partition x.source x.metadata) (existing : Bytes) :
    ((sender C).link (receiver C)).EndsIn cleanOk (delivered x.source) (x.net existing) := by
  refine (endsIn_outcome hd existing).mono fun n hreach _ h => ?_
  obtain ⟨hres, hvalid, hidle, hall⟩ := h
  obtain ⟨oL, oR, hrun⟩ := LinkRun.exists_of_reach hreach
  obtain ⟨-, -, hst⟩ := kept hpart hd.small lossless_of_cleanOk hrun
  refine ⟨⟨hres.mpr hk, by rw [hvalid, hk]; rfl⟩, ?_⟩
  rw [← AsyncFile.given_of_idle hidle]
  exact file_of_stored hpart (fun p _ hlt => absurd (hk ▸ hlt) (Nat.not_lt_zero _)) hst hall

end Loops

section Session

variable (C) (sessionId fileName outputDir : Text) (source noncePrefix : Bytes) (chunkSize : Nat)
  (level : Int) (likelyCompressed : Bool) (secret secret' : C.Secret) (fs : Files)

/-- The runs of a connection for a fresh transfer, without faults and without a pause. -/
def FreshRun (oL oR : List (Frame C))
    (n : Net (OpenPhase C (Sender.State C)) (AdmitPhase C (Receiver.State C)) (Frame C)) : Prop :=
  LinkRun
    ((sendOpening C secret (sendMetadata C sessionId fileName source noncePrefix chunkSize 0) source
      level likelyCompressed).party (sender C))
    ((handlerAdmission C secret' fs outputDir).party (receiver C))
    (eachOk (OpenAct.ok fun a => a.clean) (AdmitAct.ok fun b => b.clean)) .hello .awaitHello oL oR n

/-- The runs of a fresh transfer end with it delivered. -/
def Delivers : Prop :=
  Session.EndsIn
    (sendOpening C secret (sendMetadata C sessionId fileName source noncePrefix chunkSize 0) source
      level likelyCompressed)
    (handlerAdmission C secret' fs outputDir) (sender C) (receiver C) (fun a => a.clean)
    (fun b => b.clean) (delivered source) (Session.start C _ _)

variable {C sessionId fileName outputDir source noncePrefix chunkSize level likelyCompressed
  secret secret' fs}

theorem startChunk_fresh :
    startChunk (sendMetadata C sessionId fileName source noncePrefix chunkSize 0) = 0 := by
  simp [startChunk, sendMetadata]

/-- The chunker keeps a chunk size that is not too large. -/
theorem placed_fresh (hmax : chunkSize ≤ maxChunkSize)
    (hfits : (transferJob C sessionId fileName source noncePrefix chunkSize 0 level likelyCompressed
      secret secret').Fits) :
    (transferJob C sessionId fileName source noncePrefix chunkSize 0 level likelyCompressed
      secret secret').Placed :=
  Job.placed_of_partition (partition_transferJob (.inl hmax)) hfits.small

/-- What holds of the loops holds of the connection. -/
theorem FreshRun.correct {oL oR : List (Frame C)}
    {n : Net (OpenPhase C (Sender.State C)) (AdmitPhase C (Receiver.State C)) (Frame C)}
    (h : FreshRun C sessionId fileName outputDir source noncePrefix chunkSize level likelyCompressed
      secret secret' fs oL oR n) (hmax : chunkSize ≤ maxChunkSize)
    (hfits : (transferJob C sessionId fileName source noncePrefix chunkSize 0 level likelyCompressed
      secret secret').Fits) :
    Correct (transferJob C sessionId fileName source noncePrefix chunkSize 0 level likelyCompressed
      secret secret') oL oR n := by
  have hd := deliverable hfits (placed_fresh hmax hfits)
  rcases Session.run_cases (sendOpening_start _ _ _ _) h with hopen | ⟨b, o, o', hrun, hpast, rfl, rfl⟩
  · -- no chunk and no verdict is sent in the opening
    have hL : chunks oL = [] := by
      cases hopen <;> rfl
    have hR : ∀ f ∈ oR, ¬ (f.tag = tagComplete ∨ f.tag = tagError) := by
      cases hopen <;> simp [Admission.hello, tagServerHello, tagComplete, tagError]
    exact ⟨⟨0, Nat.zero_le _, by rw [hL]; rfl⟩, fun f hf htag => absurd htag (hR f hf)⟩
  · obtain ⟨k, hk, ho⟩ := chunks_of_run hd startChunk_fresh hrun
    refine ⟨⟨k, hk, ?_⟩, fun f hf htag => ?_⟩
    · show chunks o = _
      rw [ho, chunks_map]
    · have hf' : f ∈ o' := by
        rcases List.mem_cons.mp hf with rfl | hf
        · exact absurd (show tagServerHello = _ ∨ tagServerHello = _ from htag) (by decide)
        · rcases List.mem_cons.mp hf with rfl | hf
          · exact absurd (show tagMetadata = _ ∨ tagMetadata = _ from htag) (by decide)
          · exact hf
      obtain ⟨hframe, hall, hfile⟩ :=
        verdict_of_run hd startChunk_fresh (partition_transferJob (.inl hmax)) hrun hf' htag
      refine ⟨hframe, ?_, b.right, ?_, hfile⟩
      · show chunks o = _
        rw [hall, chunks_map]
      · rcases hpast with rfl | ⟨-, -, rfl⟩ <;> rfl

/-- **A fresh transfer.** In every run the chunk frames go out in order, each once, and the
verdict is COMPLETE over a file that is the source; and every run gets there. -/
theorem fresh_transfer (hmax : chunkSize ≤ maxChunkSize)
    (hfits : (transferJob C sessionId fileName source noncePrefix chunkSize 0 level likelyCompressed
      secret secret').Fits) :
    (∀ oL oR n, FreshRun C sessionId fileName outputDir source noncePrefix chunkSize level
        likelyCompressed secret secret' fs oL oR n →
      Correct (transferJob C sessionId fileName source noncePrefix chunkSize 0 level
        likelyCompressed secret secret') oL oR n) ∧
    Delivers C sessionId fileName outputDir source noncePrefix chunkSize level likelyCompressed
      secret secret' fs := by
  have hplaced := placed_fresh hmax hfits
  refine ⟨fun oL oR n h => h.correct hmax hfits, ?_⟩
  unfold Delivers
  rw [Session.endsIn_start (sendOpening_start _ _ _ _)]
  exact endsIn_delivered (deliverable hfits hplaced) startChunk_fresh
    (partition_transferJob (.inl hmax)) _

end Session

/-- Two chunks over a file that has some other byte. -/
theorem fresh_sample :
    (∀ oL oR n, FreshRun .plain [] ['f'] ['/', 'd'] sampleSource [0, 0, 0, 0] 0 0 false
        Primitives.plainSecret Primitives.plainSecret
        (noFiles.set (outputPath ['/', 'd'] ['f']) (some [7])) oL oR n →
      Correct (sampleJob 0) oL oR n) ∧
    Delivers .plain [] ['f'] ['/', 'd'] sampleSource [0, 0, 0, 0] 0 0 false
      Primitives.plainSecret Primitives.plainSecret
      (noFiles.set (outputPath ['/', 'd'] ['f']) (some [7])) :=
  fresh_transfer (by decide) (fits_sampleJob 0)

end P2PTransfer.Cli
