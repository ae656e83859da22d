import P2PTransfer.Transfer.Metadata

/-!
# The chunks of a file

`TransferEngine::prepare_chunk` reads the part of the source that the chunker gives to an
index. The parts of all indices are the source.

## Main definitions

- `prepareChunk` — the bytes of a chunk
- `Describes`, `Partition` — a metadata that describes its source
-/

namespace P2PTransfer

variable {C : Primitives}

/-- `prepare_chunk`: the chunker clamps the chunk size once more. -/
def prepareChunk (source : Bytes) (m : TransferMetadata C) (index : Nat) : Bytes :=
  let chunker := Chunker.new m.chunkSize m.fileSize
  (source.drop (chunker.chunkOffset index)).take (chunker.chunkLength index)

/-- The metadata is that of the source. -/
structure Describes (source : Bytes) (m : TransferMetadata C) : Prop where
  fileSize : m.fileSize = source.length
  totalChunks : m.totalChunks = (Chunker.new m.chunkSize m.fileSize).totalChunks

namespace Describes

theorem createMetadata (sessionId fileName : Text) (source : Bytes) (chunkSize : Nat)
    (forceRestart : Bool) :
    Describes source (createMetadata C sessionId fileName source chunkSize forceRestart) :=
  ⟨rfl, rfl⟩

variable {source : Bytes} {m : TransferMetadata C} (h : Describes source m)
include h

theorem prepareChunk_eq (index : Nat) : prepareChunk source m index =
    piece source (Chunker.new m.chunkSize m.fileSize).chunkSize index := by
  unfold prepareChunk piece Chunker.chunkOffset Chunker.chunkLength
  simp only [Chunker.chunkOffset]
  have hsize : (Chunker.new m.chunkSize m.fileSize).fileSize = source.length := h.fileSize
  rw [hsize, List.take_eq_take_iff, List.length_drop]
  omega

theorem length_prepareChunk_le (index : Nat) : (prepareChunk source m index).length ≤
    (Chunker.new m.chunkSize m.fileSize).chunkSize := by
  rw [h.prepareChunk_eq, length_piece]
  exact Nat.min_le_left _ _

theorem totalChunks_pos : 0 < m.totalChunks := by
  rw [h.totalChunks]
  exact Chunker.totalChunks_pos _

/-- The chunks cover the source. -/
theorem length_le :
    source.length ≤ m.totalChunks * (Chunker.new m.chunkSize m.fileSize).chunkSize := by
  have hsize : (Chunker.new m.chunkSize m.fileSize).fileSize = source.length := h.fileSize
  rw [h.totalChunks, ← hsize]
  exact Chunker.fileSize_le _

/-- The first chunks are the beginning of the source. -/
theorem flatten_range (n : Nat) : ((List.range n).map (prepareChunk source m)).flatten =
    source.take (n * (Chunker.new m.chunkSize m.fileSize).chunkSize) := by
  rw [List.map_congr_left fun j _ => h.prepareChunk_eq j, flatten_pieces]

theorem flatten_all : ((List.range m.totalChunks).map (prepareChunk source m)).flatten = source := by
  rw [h.flatten_range, List.take_of_length_le h.length_le]

/-- Where the chunker takes a smaller chunk size than the metadata has, the last of several chunks
ends beyond the end of the source. -/
theorem length_lt_last (hcap : (Chunker.new m.chunkSize m.fileSize).chunkSize < m.chunkSize)
    (hlong : (Chunker.new m.chunkSize m.fileSize).chunkSize < source.length) :
    0 < (prepareChunk source m (m.totalChunks - 1)).length ∧ source.length <
      (m.totalChunks - 1) * m.chunkSize + (prepareChunk source m (m.totalChunks - 1)).length := by
  have hpos := (Chunker.new m.chunkSize m.fileSize).chunkSize_pos
  have hfile : (Chunker.new m.chunkSize m.fileSize).fileSize = source.length := h.fileSize
  have hcover := h.length_le
  obtain ⟨k, hk⟩ : ∃ k, m.totalChunks = k + 1 := ⟨m.totalChunks - 1, by
    have := h.totalChunks_pos
    omega⟩
  have hbegins : k * (Chunker.new m.chunkSize m.fileSize).chunkSize < source.length := by
    rw [← hfile]
    apply (Chunker.lt_totalChunks_iff _ (by omega)).mp
    rw [← h.totalChunks, hk]
    exact Nat.lt_succ_self k
  rw [h.prepareChunk_eq, length_piece]
  generalize hsize : (Chunker.new m.chunkSize m.fileSize).chunkSize = size at *
  rw [hk, Nat.succ_mul] at hcover
  rw [hk, Nat.add_sub_cancel]
  have hone : 0 < k := by
    by_contra hzero
    obtain rfl : k = 0 := by omega
    omega
  have hless := Nat.mul_lt_mul_of_pos_left hcap hone
  constructor <;> omega

end Describes

/-- The chunks lie where the metadata says: its chunk size is one that the chunker keeps, or
there is only one chunk. -/
structure Partition (source : Bytes) (m : TransferMetadata C) : Prop extends
    Describes source m where
  pos : 0 < m.chunkSize
  chunkSize : (Chunker.new m.chunkSize m.fileSize).chunkSize = m.chunkSize ∨
    source.length ≤ (Chunker.new m.chunkSize m.fileSize).chunkSize ∧
      (Chunker.new m.chunkSize m.fileSize).chunkSize ≤ m.chunkSize

namespace Partition

theorem createMetadata {sessionId fileName : Text} {source : Bytes} {chunkSize : Nat}
    {forceRestart : Bool} (h : chunkSize ≤ maxChunkSize ∨ source.length ≤ maxChunkSize) :
    Partition source (createMetadata C sessionId fileName source chunkSize forceRestart) := by
  have hmin : minChunkSize ≤ maxChunkSize := by decide
  have hpos : 0 < minChunkSize := by decide
  refine ⟨⟨rfl, rfl⟩, ?_, ?_⟩
  · show 0 < max chunkSize minChunkSize
    omega
  · show max minChunkSize (min maxChunkSize (max chunkSize minChunkSize)) = max chunkSize minChunkSize ∨
      source.length ≤ max minChunkSize (min maxChunkSize (max chunkSize minChunkSize)) ∧
        max minChunkSize (min maxChunkSize (max chunkSize minChunkSize)) ≤ max chunkSize minChunkSize
    omega

variable {source : Bytes} {m : TransferMetadata C} (h : Partition source m)
include h

theorem length_le : source.length ≤ m.totalChunks * m.chunkSize := by
  rcases h.chunkSize with hsize | ⟨hone, hle⟩
  · exact hsize ▸ h.toDescribes.length_le
  · have := Nat.le_mul_of_pos_left m.chunkSize h.totalChunks_pos
    omega

theorem prepareChunk_eq (index : Nat) :
    prepareChunk source m index = piece source m.chunkSize index := by
  rcases h.chunkSize with hsize | ⟨hone, hle⟩
  · rw [h.toDescribes.prepareChunk_eq, hsize]
  · -- the first chunk is the source, and the others are empty
    rw [h.toDescribes.prepareChunk_eq, piece, piece]
    cases index with
    | zero =>
      rw [Nat.zero_mul, Nat.zero_mul, List.drop_zero, List.take_of_length_le hone,
        List.take_of_length_le (hone.trans hle)]
    | succ i =>
      have hbelow := hone.trans (Nat.le_mul_of_pos_left
        (Chunker.new m.chunkSize m.fileSize).chunkSize i.succ_pos)
      have habove := (hone.trans hle).trans (Nat.le_mul_of_pos_left m.chunkSize i.succ_pos)
      rw [List.drop_eq_nil_of_le hbelow, List.drop_eq_nil_of_le habove, List.take_nil, List.take_nil]

/-- A chunk does not begin beyond the end. -/
theorem mul_le {index : Nat} (hi : index < m.totalChunks) :
    index * m.chunkSize ≤ source.length := by
  have hfile : (Chunker.new m.chunkSize m.fileSize).fileSize = source.length := h.fileSize
  rw [h.totalChunks] at hi
  rcases h.chunkSize with hsize | ⟨hone, -⟩
  · rw [← hsize, ← hfile]
    exact Chunker.chunkOffset_le _ hi
  · rw [Chunker.totalChunks_of_le _ (hfile ▸ hone)] at hi
    rw [Nat.lt_one_iff.mp hi, Nat.zero_mul]
    exact Nat.zero_le _

/-- A chunk after the first one has a byte. -/
theorem mul_lt {index : Nat} (hi : index + 1 < m.totalChunks) :
    (index + 1) * m.chunkSize < source.length := by
  have hfile : (Chunker.new m.chunkSize m.fileSize).fileSize = source.length := h.fileSize
  rw [h.totalChunks] at hi
  rcases h.chunkSize with hsize | ⟨hone, -⟩
  · have hne : (Chunker.new m.chunkSize m.fileSize).fileSize ≠ 0 := by
      intro hempty
      rw [Chunker.totalChunks_of_empty _ hempty] at hi
      omega
    have hlt := (Chunker.lt_totalChunks_iff _ hne).mp hi
    rw [Chunker.chunkOffset, hsize] at hlt
    rwa [← hfile]
  · rw [Chunker.totalChunks_of_le _ (hfile ▸ hone)] at hi
    omega

theorem div_lt {p : Nat} (hp : p < source.length) : p / m.chunkSize < m.totalChunks :=
  (Nat.div_lt_iff_lt_mul h.pos).mpr (Nat.lt_of_lt_of_le hp h.length_le)

theorem prepareChunk_part (index : Nat) :
    prepareChunk source m index <+: source.drop (index * m.chunkSize) := by
  rw [h.prepareChunk_eq]
  exact piece_part source m.chunkSize index

/-- Where the bytes of a chunk are. -/
theorem mem_chunk {p index : Nat} (hp : p < source.length) (hdiv : p / m.chunkSize = index) :
    index * m.chunkSize ≤ p ∧
      p < index * m.chunkSize + (prepareChunk source m index).length := by
  rw [h.prepareChunk_eq]
  exact mem_piece h.pos hp hdiv

/-- The offset of a chunk whose number fits a frame is far below the limit of `seek`. -/
theorem offset_lt (hsmall : m.totalChunks ≤ 2 ^ 32) {index : Nat} (hi : index < m.totalChunks) :
    index * m.chunkSize < 2 ^ 63 := by
  have hmax : (Chunker.new m.chunkSize m.fileSize).chunkSize ≤ maxChunkSize := by
    show max minChunkSize (min maxChunkSize m.chunkSize) ≤ maxChunkSize
    unfold minChunkSize maxChunkSize
    omega
  rcases h.chunkSize with hsize | ⟨hone, -⟩
  · rw [hsize] at hmax
    calc index * m.chunkSize ≤ 2 ^ 32 * maxChunkSize :=
          Nat.mul_le_mul (hi.le.trans hsmall) hmax
      _ < 2 ^ 63 := by decide
  · have hfile : (Chunker.new m.chunkSize m.fileSize).fileSize = source.length := h.fileSize
    rw [h.totalChunks, Chunker.totalChunks_of_le _ (hfile ▸ hone)] at hi
    rw [Nat.lt_one_iff.mp hi, Nat.zero_mul]
    decide

end Partition

end P2PTransfer
