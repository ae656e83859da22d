import P2PTransfer.Transfer.Chunks

/-!
# Chunks that are read from a mapped file

`read_file_chunk` takes a range of a mapped file and clamps only the end of it.
`prepare_chunk` seeks, and asks for the length first. Both take the place of a chunk from the
chunker, whose product may not fit into 64 bits.

## Main definitions

- `readFileChunk`, `mappedChunk` — the chunk of an index, from the map
- `tryPrepareChunk` — `prepare_chunk` with its machine arithmetic
- `ReadsAgree` — both give the part of the file that the index stands for

## Main results

- `mappedChunk_eq`, `tryPrepareChunk_eq` — what the two give for a machine offset
- `readsAgree_of_lt_total` — they agree on every chunk of the file
- `readsAgree_iff` — and up to the end of the file, but not beyond it
-/

namespace P2PTransfer

open Machine64

variable {C : Primitives}

/-- A file of the system, whose positions are signed numbers. -/
structure SystemFile where
  content : Bytes
  length_lt : content.length < 2 ^ 63

namespace Chunker

/-- `chunk_offset`, in a build with or without overflow checks. -/
def tryChunkOffset (checks : Bool) (c : Chunker) (index : Nat) : Option Nat :=
  mulU64 checks index c.chunkSize

def tryChunkLength (checks : Bool) (c : Chunker) (index : Nat) : Option Nat := do
  let offset ← c.tryChunkOffset checks index
  return min (c.fileSize - offset) c.chunkSize

end Chunker

/-- A range of a slice: it panics for a start after the end, and for an end beyond the slice. -/
def slice (data : Bytes) (start stop : Nat) : Option Bytes :=
  if start ≤ stop ∧ stop ≤ data.length then some ((data.drop start).take (stop - start)) else none

/-- `read_file_chunk`, for what `Mmap::map` makes of a file. -/
def readFileChunk (checks : Bool) (mmap : Bytes → Option Bytes) (file : Bytes)
    (offset length : Nat) : Option Bytes := do
  let map ← mmap file
  let stop ← addU64 checks offset length
  slice map offset (min stop map.length)

/-- `read_file_chunk` at the place that the chunker gives to an index. -/
def mappedChunk (checks : Bool) (mmap : Bytes → Option Bytes) (file : Bytes)
    (m : TransferMetadata C) (index : Nat) : Option Bytes := do
  let chunker := Chunker.new m.chunkSize m.fileSize
  let offset ← chunker.tryChunkOffset checks index
  let length ← chunker.tryChunkLength checks index
  readFileChunk checks mmap file offset length

/-- `read_exact` at a position: a file that ends before is an error. -/
def readExact (file : Bytes) (pos length : Nat) : Option Bytes :=
  if pos + length ≤ file.length then some ((file.drop pos).take length) else none

/-- `prepare_chunk`, in a build with or without overflow checks. -/
def tryPrepareChunk (checks : Bool) (file : Bytes) (m : TransferMetadata C) (index : Nat) :
    Option Bytes := do
  let chunker := Chunker.new m.chunkSize m.fileSize
  let offset ← chunker.tryChunkOffset checks index
  let length ← chunker.tryChunkLength checks index
  if length = 0 then
    return []
  let pos ← seekStart offset
  readExact file pos length

/-- A map of a file holds its bytes. -/
def MapsFiles (mmap : Bytes → Option Bytes) : Prop :=
  ∀ file : SystemFile, mmap file.content = some file.content

/-- Both reads give the part of the file that the index stands for. -/
def ReadsAgree (checks : Bool) (mmap : Bytes → Option Bytes) (file : Bytes)
    (m : TransferMetadata C) (index : Nat) : Prop :=
  mappedChunk checks mmap file m index =
      some (piece file (Chunker.new m.chunkSize m.fileSize).chunkSize index) ∧
    tryPrepareChunk checks file m index =
      some (piece file (Chunker.new m.chunkSize m.fileSize).chunkSize index)

section Reads

variable {checks : Bool} {mmap : Bytes → Option Bytes} {file : SystemFile}
  {m : TransferMetadata C} {index offset : Nat}

/-- A place of the machine arithmetic, and the bytes there. -/
def bytesAt (file : Bytes) (m : TransferMetadata C) (offset : Nat) : Bytes :=
  (file.drop offset).take (Chunker.new m.chunkSize m.fileSize).chunkSize

theorem take_min_bytesAt (hsize : m.fileSize = file.content.length) :
    (file.content.drop offset).take
        (min (m.fileSize - offset) (Chunker.new m.chunkSize m.fileSize).chunkSize) =
      bytesAt file.content m offset := by
  rw [bytesAt, List.take_eq_take_iff, List.length_drop, hsize]
  omega

theorem tryChunkLength_eq
    (hoffset : (Chunker.new m.chunkSize m.fileSize).tryChunkOffset checks index = some offset) :
    (Chunker.new m.chunkSize m.fileSize).tryChunkLength checks index =
      some (min (m.fileSize - offset) (Chunker.new m.chunkSize m.fileSize).chunkSize) := by
  rw [Chunker.tryChunkLength, hoffset]
  rfl

theorem slice_eq_none {data : Bytes} {start stop : Nat} (h : stop < start) :
    slice data start stop = none := if_neg fun hle => absurd hle.1 (Nat.not_le.mpr h)

/-- The map gives the bytes of a place up to the end, and panics beyond it. -/
theorem mappedChunk_eq (hmap : MapsFiles mmap) (hsize : m.fileSize = file.content.length)
    (hoffset : (Chunker.new m.chunkSize m.fileSize).tryChunkOffset checks index = some offset)
    (hlt : offset < 2 ^ 64) :
    mappedChunk checks mmap file.content m index =
      if offset ≤ file.content.length then some (bytesAt file.content m offset) else none := by
  have hlen := file.length_lt
  have hread : mappedChunk checks mmap file.content m index =
      readFileChunk checks mmap file.content offset
        (min (m.fileSize - offset) (Chunker.new m.chunkSize m.fileSize).chunkSize) := by
    simp only [mappedChunk, hoffset, tryChunkLength_eq hoffset, Option.bind_eq_bind,
      Option.bind_some]
  generalize hlength : min (m.fileSize - offset) (Chunker.new m.chunkSize m.fileSize).chunkSize =
    length at hread
  have hsum : addU64 checks offset length = some (offset + length) := narrow_of_lt (by omega)
  have hslice : mappedChunk checks mmap file.content m index =
      slice file.content offset (min (offset + length) file.content.length) := by
    rw [hread, readFileChunk, hmap file, Option.bind_eq_bind, Option.bind_some, hsum,
      Option.bind_eq_bind, Option.bind_some]
  split
  · next hle =>
    have hstop : min (offset + length) file.content.length = offset + length := by omega
    rw [hslice, hstop, slice, if_pos (by omega), Nat.add_sub_cancel_left, ← hlength,
      take_min_bytesAt hsize]
  · next hbeyond => rw [hslice, slice_eq_none (by omega)]

/-- The seeking read gives the bytes of every place. -/
theorem tryPrepareChunk_eq (hsize : m.fileSize = file.content.length)
    (hoffset : (Chunker.new m.chunkSize m.fileSize).tryChunkOffset checks index = some offset) :
    tryPrepareChunk checks file.content m index = some (bytesAt file.content m offset) := by
  have hlen := file.length_lt
  rw [← take_min_bytesAt hsize]
  unfold tryPrepareChunk
  simp only [hoffset, tryChunkLength_eq hoffset, Option.bind_eq_bind, Option.bind_some]
  split
  · next hzero => rw [hzero, List.take_zero]; rfl
  · next hpos =>
    rw [seekStart, if_pos (by omega), Option.bind_some, readExact, if_pos (by omega)]

/-- The two agree exactly where the machine offset is that of the same bytes, and not beyond
the end. -/
theorem readsAgree_iff_offset (hmap : MapsFiles mmap) (hsize : m.fileSize = file.content.length)
    (hoffset : (Chunker.new m.chunkSize m.fileSize).tryChunkOffset checks index = some offset)
    (hlt : offset < 2 ^ 64) :
    ReadsAgree checks mmap file.content m index ↔
      offset ≤ file.content.length ∧ bytesAt file.content m offset =
        piece file.content (Chunker.new m.chunkSize m.fileSize).chunkSize index := by
  rw [ReadsAgree, mappedChunk_eq hmap hsize hoffset hlt, tryPrepareChunk_eq hsize hoffset]
  constructor
  · rintro ⟨hmapped, hseek⟩
    split at hmapped
    · next hle => exact ⟨hle, Option.some.inj hseek⟩
    · cases hmapped
  · rintro ⟨hle, hbytes⟩
    rw [if_pos hle, hbytes]
    exact ⟨rfl, rfl⟩

theorem piece_eq_nil {source : Bytes} {size : Nat} (h : source.length ≤ index * size) :
    piece source size index = [] := by
  rw [piece, List.drop_of_length_le h, List.take_nil]

theorem bytesAt_eq_nil_iff (hle : offset ≤ file.content.length) :
    bytesAt file.content m offset = [] ↔ offset = file.content.length := by
  have hpos := (Chunker.new m.chunkSize m.fileSize).chunkSize_pos
  rw [← List.length_eq_zero_iff, bytesAt, List.length_take, List.length_drop]
  omega

/-- A place of 64 bits is read by both up to the end of the file. -/
theorem readsAgree_of_lt (hmap : MapsFiles mmap) (hsize : m.fileSize = file.content.length)
    (hlt : index * (Chunker.new m.chunkSize m.fileSize).chunkSize < 2 ^ 64) :
    ReadsAgree checks mmap file.content m index ↔
      index * (Chunker.new m.chunkSize m.fileSize).chunkSize ≤ file.content.length := by
  rw [readsAgree_iff_offset hmap hsize (mulU64_of_lt hlt) hlt]
  exact and_iff_left rfl

/-- A larger one panics in both with overflow checks, -/
theorem not_readsAgree_of_le
    (h : 2 ^ 64 ≤ index * (Chunker.new m.chunkSize m.fileSize).chunkSize) :
    ¬ ReadsAgree true mmap file.content m index := by
  rintro ⟨-, hseek⟩
  have hnone : (Chunker.new m.chunkSize m.fileSize).tryChunkOffset true index = none :=
    if_neg (Nat.not_lt.mpr h)
  simp only [tryPrepareChunk, hnone, Option.bind_eq_bind, Option.bind_none] at hseek
  cases hseek

/-- and without them it is a place of 64 bits again, at which there are no bytes at the end only. -/
theorem readsAgree_of_le (hmap : MapsFiles mmap) (hsize : m.fileSize = file.content.length)
    (h : 2 ^ 64 ≤ index * (Chunker.new m.chunkSize m.fileSize).chunkSize) :
    ReadsAgree false mmap file.content m index ↔
      index * (Chunker.new m.chunkSize m.fileSize).chunkSize % 2 ^ 64 = file.content.length := by
  have hlen := file.length_lt
  have hoffset : (Chunker.new m.chunkSize m.fileSize).tryChunkOffset false index =
      some (index * (Chunker.new m.chunkSize m.fileSize).chunkSize % 2 ^ 64) :=
    if_neg (Nat.not_lt.mpr h)
  rw [readsAgree_iff_offset hmap hsize hoffset (Nat.mod_lt _ (by decide)), piece_eq_nil (by omega)]
  constructor
  · rintro ⟨hle, hbytes⟩
    exact (bytesAt_eq_nil_iff hle).mp hbytes
  · intro heq
    exact ⟨heq.le, (bytesAt_eq_nil_iff heq.le).mpr heq⟩

/-- The three cases together: a wrapped place is not one before the end. -/
theorem readsAgree_iff_place (hmap : MapsFiles mmap) (hsize : m.fileSize = file.content.length) :
    ReadsAgree checks mmap file.content m index ↔
      index * (Chunker.new m.chunkSize m.fileSize).chunkSize ≤ file.content.length ∨
        checks = false ∧ index * (Chunker.new m.chunkSize m.fileSize).chunkSize % 2 ^ 64 =
          file.content.length := by
  have hlen := file.length_lt
  by_cases hlt : index * (Chunker.new m.chunkSize m.fileSize).chunkSize < 2 ^ 64
  · rw [readsAgree_of_lt hmap hsize hlt, Nat.mod_eq_of_lt hlt]
    exact ⟨.inl, fun h => h.elim id fun heq => heq.2.le⟩
  · have hbeyond :
        ¬ index * (Chunker.new m.chunkSize m.fileSize).chunkSize ≤ file.content.length := by
      omega
    rw [or_iff_right hbeyond]
    cases checks with
    | true =>
      exact iff_of_false (not_readsAgree_of_le (Nat.not_lt.mp hlt))
        (fun h => absurd h.1 (by decide))
    | false =>
      rw [readsAgree_of_le hmap hsize (Nat.not_lt.mp hlt)]
      exact (and_iff_right rfl).symm

/-- So they agree on every chunk of the file. -/
theorem readsAgree_of_lt_total (hmap : MapsFiles mmap) (hdesc : Describes file.content m)
    (h : index < m.totalChunks) : ReadsAgree checks mmap file.content m index := by
  have hsize := hdesc.fileSize
  refine (readsAgree_iff_place hmap hsize).mpr (.inl ?_)
  rw [hdesc.totalChunks] at h
  have hfile : (Chunker.new m.chunkSize m.fileSize).fileSize = file.content.length := hsize
  rw [← hfile]
  exact Chunker.chunkOffset_le _ h

end Reads

/-- **Mapped and seeked reads.** They agree on the part of the file exactly for a chunk that
does not begin beyond the end of the file, and, without overflow checks, for one whose wrapped
offset is the end. -/
theorem readsAgree_iff (checks : Bool) {mmap : Bytes → Option Bytes} (hmap : MapsFiles mmap)
    (file : SystemFile) (sessionId fileName : Text) (chunkSize : Nat) (forceRestart : Bool)
    (index : Nat) :
    ReadsAgree checks mmap file.content
        (createMetadata C sessionId fileName file.content chunkSize forceRestart) index ↔
      index * (Chunker.new (max chunkSize minChunkSize) file.content.length).chunkSize ≤
          file.content.length ∨
        checks = false ∧
          index * (Chunker.new (max chunkSize minChunkSize) file.content.length).chunkSize %
            2 ^ 64 = file.content.length :=
  readsAgree_iff_place hmap rfl

/-- A file of one byte. -/
def byteFile : SystemFile := ⟨[7], by decide⟩

theorem mapsFiles_some : MapsFiles some := by
  intro file
  rfl

/-- Its only chunk is read by both. -/
theorem byteFile_readsAgree :
    ReadsAgree true some byteFile.content
        (createMetadata .plain [] ['f'] byteFile.content 0 false) 0 ↔
      0 * (Chunker.new (max 0 minChunkSize) byteFile.content.length).chunkSize ≤
          byteFile.content.length ∨
        true = false ∧
          0 * (Chunker.new (max 0 minChunkSize) byteFile.content.length).chunkSize %
            2 ^ 64 = byteFile.content.length :=
  readsAgree_iff true mapsFiles_some byteFile [] ['f'] 0 false 0

/-- The chunk after it begins beyond the end, where the range of the map is reversed. -/
theorem byteFile_not_readsAgree :
    ¬ ReadsAgree true some byteFile.content
        (createMetadata .plain [] ['f'] byteFile.content 0 false) 1 := by
  have hplace : 1 * (Chunker.new (createMetadata .plain [] ['f'] byteFile.content 0 false).chunkSize
      (createMetadata .plain [] ['f'] byteFile.content 0 false).fileSize).chunkSize = 524288 := rfl
  rw [readsAgree_of_lt mapsFiles_some rfl (by rw [hplace]; decide), hplace]
  decide

end P2PTransfer
