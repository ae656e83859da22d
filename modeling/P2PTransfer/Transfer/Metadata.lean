import P2PTransfer.Crypto

/-!
# Chunks and the metadata of a transfer

## Main definitions

- `Chunker` — the partition of a file into chunks, with its clamped chunk size
- `TransferMetadata` — what a TCP sender announces
- `createMetadata` — `TransferEngine::create_metadata`
-/

namespace P2PTransfer

/-- The strings of the source, as lists of characters. -/
abbrev Text := List Char

def minChunkSize : Nat := 512 * 1024

def maxChunkSize : Nat := 64 * 1024 * 1024

structure Chunker where
  chunkSize : Nat
  fileSize : Nat
  min_le : minChunkSize ≤ chunkSize
  le_max : chunkSize ≤ maxChunkSize

namespace Chunker

def new (chunkSize fileSize : Nat) : Chunker where
  chunkSize := max minChunkSize (min maxChunkSize chunkSize)
  fileSize := fileSize
  min_le := by omega
  le_max := by unfold minChunkSize maxChunkSize; omega

variable (c : Chunker)

theorem chunkSize_pos : 0 < c.chunkSize := by
  have := c.min_le
  unfold minChunkSize at this
  omega

def totalChunks : Nat :=
  if c.fileSize = 0 then 1 else (c.fileSize + c.chunkSize - 1) / c.chunkSize

def chunkOffset (index : Nat) : Nat := index * c.chunkSize

def chunkLength (index : Nat) : Nat := min (c.fileSize - c.chunkOffset index) c.chunkSize

/-- The chunks are those that begin before the end. -/
theorem lt_totalChunks_iff (h : c.fileSize ≠ 0) {index : Nat} :
    index < c.totalChunks ↔ c.chunkOffset index < c.fileSize := by
  have hpos := c.chunkSize_pos
  rw [totalChunks, if_neg h, ← Nat.succ_le_iff, Nat.le_div_iff_mul_le hpos, Nat.succ_mul,
    chunkOffset]
  omega

/-- An empty file has one chunk. -/
theorem totalChunks_of_empty (h : c.fileSize = 0) : c.totalChunks = 1 := if_pos h

theorem totalChunks_pos : 0 < c.totalChunks := by
  by_cases hempty : c.fileSize = 0
  · rw [c.totalChunks_of_empty hempty]
    exact Nat.one_pos
  · apply (c.lt_totalChunks_iff hempty).mpr
    rw [chunkOffset, Nat.zero_mul]
    exact Nat.pos_of_ne_zero hempty

/-- A chunk does not begin beyond the end. -/
theorem chunkOffset_le {index : Nat} (h : index < c.totalChunks) :
    c.chunkOffset index ≤ c.fileSize := by
  by_cases hempty : c.fileSize = 0
  · rw [c.totalChunks_of_empty hempty] at h
    rw [Nat.lt_one_iff.mp h, chunkOffset, Nat.zero_mul]
    exact Nat.zero_le _
  · exact Nat.le_of_lt ((c.lt_totalChunks_iff hempty).mp h)

/-- A file that is not longer than a chunk is one chunk. -/
theorem totalChunks_of_le (h : c.fileSize ≤ c.chunkSize) : c.totalChunks = 1 := by
  by_cases hempty : c.fileSize = 0
  · exact c.totalChunks_of_empty hempty
  · have hsecond : ¬ 1 < c.totalChunks := by
      rw [c.lt_totalChunks_iff hempty, chunkOffset, Nat.one_mul]
      exact Nat.not_lt.mpr h
    have := c.totalChunks_pos
    omega

/-- The chunks cover the file. -/
theorem fileSize_le : c.fileSize ≤ c.chunkOffset c.totalChunks := by
  by_cases hempty : c.fileSize = 0
  · rw [hempty]
    exact Nat.zero_le _
  · apply Nat.le_of_not_lt
    intro hlt
    exact absurd ((c.lt_totalChunks_iff hempty).mpr hlt) (Nat.lt_irrefl _)

end Chunker

structure TransferMetadata (C : Primitives) where
  sessionId : Text
  fileName : Text
  fileSize : Nat
  chunkSize : Nat
  totalChunks : Nat
  checksum : C.Digest
  resumeOffset : Nat := 0
  isResume : Bool := false
  noncePrefix : Bytes := [0, 0, 0, 0]
  forceRestart : Bool := false
deriving DecidableEq

/-- The chunk size is raised to the minimum, and only the chunker also lowers it
to the maximum. -/
def createMetadata (C : Primitives) (sessionId fileName : Text) (content : Bytes)
    (chunkSize : Nat) (forceRestart : Bool) : TransferMetadata C where
  sessionId := sessionId
  fileName := fileName
  fileSize := content.length
  chunkSize := max chunkSize minChunkSize
  totalChunks := (Chunker.new (max chunkSize minChunkSize) content.length).totalChunks
  checksum := C.blake3 content
  forceRestart := forceRestart

end P2PTransfer
