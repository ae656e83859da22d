import P2PTransfer.Cli.Transfer

/-!
# The size of a chunk frame

The chunker admits chunks as large as the largest message. The frame of a chunk has its header
and its tag besides, so that the reader refuses the frame of such a chunk.

## Main definitions

- `FramesFit` — the condition under which every frame of a file is small enough
-/

namespace P2PTransfer.Cli

variable {C : Primitives}

/-- How many bytes of a frame are not those of its chunk: the tag of the message, the index,
the flag and the tag of the cipher. -/
def frameOverhead : Nat := 6 + tagLen

/-- What is asked of a file and its chunk size: without compression that a whole chunk leaves
room for the overhead, with it that what zstd makes of each chunk does. -/
def FramesFit (C : Primitives) (source : Bytes) (chunkSize : Nat) (level : Int)
    (likelyCompressed : Bool) : Prop :=
  let size := (Chunker.new (max chunkSize minChunkSize) source.length).chunkSize
  if 0 < level ∧ ¬ likelyCompressed then
    ∀ j, 64 ≤ (piece source size j).length →
      ((C.compress level (piece source size j)).getD (piece source size j)).length +
        frameOverhead ≤ maxPayloadSize
  else min size source.length + frameOverhead ≤ maxPayloadSize

namespace Job

theorem size_frame (x : Job C) (index : Nat) (data : Bytes) :
    (x.frame index data).size = ((x.compressed data).getD data).length + frameOverhead := by
  unfold Job.frame frameOverhead
  cases x.compressed data with
  | none =>
    show 6 + (C.encrypt x.key _ data).length = _
    rw [C.encrypt_length, Option.getD_none]
    omega
  | some c =>
    show 6 + (C.encrypt x.key _ c).length = _
    rw [C.encrypt_length, Option.getD_some]
    omega

theorem oversized_chunkFrame {x : Job C} (hdesc : Describes x.source x.metadata) {size : Nat}
    (hsize : (Chunker.new x.metadata.chunkSize x.metadata.fileSize).chunkSize = size) (j : Nat) :
    (x.chunkFrame j).oversized = false ↔
      ((x.compressed (piece x.source size j)).getD (piece x.source size j)).length +
        frameOverhead ≤ maxPayloadSize := by
  rw [Frame.oversized, decide_eq_false_iff_not, Nat.not_lt, Job.chunkFrame, size_frame,
    hdesc.prepareChunk_eq, hsize]

theorem compressed_eq_none {x : Job C} (h : ¬ (0 < x.level ∧ ¬ x.likelyCompressed))
    (data : Bytes) : x.compressed data = none :=
  if_neg fun hc => h ⟨hc.1, hc.2.2⟩

/-- Without compression the first frame is as large as any. -/
theorem fits_of_first {x : Job C} (hdesc : Describes x.source x.metadata)
    (hplain : ¬ (0 < x.level ∧ ¬ x.likelyCompressed)) {size : Nat}
    (hsize : (Chunker.new x.metadata.chunkSize x.metadata.fileSize).chunkSize = size) :
    (∀ j < x.metadata.totalChunks, (x.chunkFrame j).oversized = false) ↔
      min size x.source.length + frameOverhead ≤ maxPayloadSize := by
  have hframe : ∀ j, (x.chunkFrame j).oversized = false ↔
      min size (x.source.length - j * size) + frameOverhead ≤ maxPayloadSize := by
    intro j
    rw [oversized_chunkFrame hdesc hsize, compressed_eq_none hplain, Option.getD_none,
      length_piece]
  constructor
  · intro h
    have hfirst := (hframe 0).mp (h 0 hdesc.totalChunks_pos)
    rwa [Nat.zero_mul, Nat.sub_zero] at hfirst
  · intro h j _
    rw [hframe]
    omega

/-- A piece of less than 64 bytes is not compressed, and it is small enough. -/
theorem fits_of_compressed {x : Job C} (hdesc : Describes x.source x.metadata)
    (hcomp : 0 < x.level ∧ ¬ x.likelyCompressed) {size : Nat}
    (hsize : (Chunker.new x.metadata.chunkSize x.metadata.fileSize).chunkSize = size) :
    (∀ j < x.metadata.totalChunks, (x.chunkFrame j).oversized = false) ↔
      ∀ j, 64 ≤ (piece x.source size j).length →
        ((C.compress x.level (piece x.source size j)).getD (piece x.source size j)).length +
          frameOverhead ≤ maxPayloadSize := by
  constructor
  · intro h j hlong
    -- a piece with bytes is one of the chunks
    have hj : j < x.metadata.totalChunks := by
      by_contra hge
      have hcover := hdesc.length_le
      rw [hsize] at hcover
      have hmul := Nat.mul_le_mul_right size (Nat.not_lt.mp hge)
      rw [length_piece] at hlong
      omega
    have hfits := (oversized_chunkFrame hdesc hsize j).mp (h j hj)
    rwa [Job.compressed, if_pos ⟨hcomp.1, hlong, hcomp.2⟩] at hfits
  · intro h j _
    rw [oversized_chunkFrame hdesc hsize]
    by_cases hlong : 64 ≤ (piece x.source size j).length
    · rw [Job.compressed, if_pos ⟨hcomp.1, hlong, hcomp.2⟩]
      exact h j hlong
    · have hroom : 64 + frameOverhead ≤ maxPayloadSize := by decide
      rw [Job.compressed, if_neg fun hc => hlong hc.2.1, Option.getD_none]
      omega

end Job

section Transfer

variable {sessionId fileName : Text} {source noncePrefix : Bytes} {chunkSize resumeOffset : Nat}
  {level : Int} {likelyCompressed : Bool} {secret secret' : C.Secret}

/-- **Size of the frames.** The frames of a file are small enough for the reader exactly when
its chunks leave room for their header and their tag. -/
theorem frames_fit_iff :
    (∀ j < (transferJob C sessionId fileName source noncePrefix chunkSize resumeOffset level
        likelyCompressed secret secret').metadata.totalChunks,
      ((transferJob C sessionId fileName source noncePrefix chunkSize resumeOffset level
        likelyCompressed secret secret').chunkFrame j).oversized = false) ↔
    FramesFit C source chunkSize level likelyCompressed := by
  have hdesc := describes_transferJob C sessionId fileName source noncePrefix chunkSize
    resumeOffset level likelyCompressed secret secret'
  unfold FramesFit
  split
  · next hcomp => exact Job.fits_of_compressed hdesc hcomp rfl
  · next hplain => exact Job.fits_of_first hdesc hplain rfl

/-- A file of one chunk of the maximal size does not leave that room. -/
theorem not_fits_of_full (hlen : source.length = maxChunkSize) (hchunk : chunkSize = maxChunkSize)
    (hplain : ¬ (0 < level ∧ ¬ likelyCompressed)) :
    ¬ ∀ j < (transferJob C sessionId fileName source noncePrefix chunkSize resumeOffset level
        likelyCompressed secret secret').metadata.totalChunks,
      ((transferJob C sessionId fileName source noncePrefix chunkSize resumeOffset level
        likelyCompressed secret secret').chunkFrame j).oversized = false := by
  intro h
  have hdesc := describes_transferJob C sessionId fileName source noncePrefix chunkSize
    resumeOffset level likelyCompressed secret secret'
  have hroom : min (max minChunkSize (min maxChunkSize (max chunkSize minChunkSize)))
      source.length + frameOverhead ≤ maxPayloadSize := (Job.fits_of_first hdesc hplain rfl).mp h
  rw [hlen, hchunk] at hroom
  exact absurd hroom (by decide)

end Transfer

/-- A file of one chunk of the maximal size. -/
def fullSource : Bytes := List.replicate maxChunkSize 0

/-- Its frame is refused. -/
theorem full_frame_not_fits :
    ¬ ∀ j < (transferJob .plain [] ['f'] fullSource [0, 0, 0, 0] maxChunkSize 0 0 false
        Primitives.plainSecret Primitives.plainSecret).metadata.totalChunks,
      ((transferJob .plain [] ['f'] fullSource [0, 0, 0, 0] maxChunkSize 0 0 false
        Primitives.plainSecret Primitives.plainSecret).chunkFrame j).oversized = false := by
  have hlen : fullSource.length = maxChunkSize := List.length_replicate
  exact not_fits_of_full hlen rfl (by simp)

end P2PTransfer.Cli
