import P2PTransfer.Lib.Machine64
import P2PTransfer.Transfer.Engine

/-!
# Chunks that are read and chunks that are written

`prepare_chunk` takes the place of a chunk from the chunker, `process_received_chunk` from the
chunk size of the metadata. The two agree unless the metadata has a chunk size above the
maximum and the file more than one chunk.

## Main definitions

- `processReceivedChunk` — the write of a chunk into a file that may be absent
- `writeChunks` — the chunks of a source, written in some order
-/

namespace P2PTransfer

open Machine64

variable {C : Primitives}

/-- `File::seek`: the system takes the position for a signed number. -/
def seekStart (offset : Nat) : Option Nat := if offset < 2 ^ 63 then some offset else none

theorem seekStart_isSome {offset : Nat} : (seekStart offset).isSome ↔ offset < 2 ^ 63 := by
  unfold seekStart
  split <;> simp_all

/-- `process_received_chunk`, in a build with or without overflow checks. A file that is
absent is created. -/
def processReceivedChunk (checks : Bool) (file : Option Bytes) (index chunkSize : Nat)
    (data : Bytes) : Option Bytes :=
  (mulU64 checks index chunkSize).bind fun offset =>
    (seekStart offset).map fun pos => writeAt (file.getD []) pos data

/-- The chunks of a source, read and written one after the other. -/
def writeChunks (checks : Bool) (source : Bytes) (m : TransferMetadata C) :
    List Nat → Option Bytes → Option (Option Bytes)
  | [], file => some file
  | index :: order, file =>
    (processReceivedChunk checks file index m.chunkSize (prepareChunk source m index)).bind
      fun written => writeChunks checks source m order (some written)

theorem processReceivedChunk_eq_some {checks : Bool} {file : Option Bytes} {index chunkSize : Nat}
    {data written : Bytes} :
    processReceivedChunk checks file index chunkSize data = some written ↔
      ∃ pos < 2 ^ 63, mulU64 checks index chunkSize = some pos ∧
        writeAt (file.getD []) pos data = written := by
  unfold processReceivedChunk seekStart
  constructor
  · intro h
    obtain ⟨pos, hmul, hpos⟩ := Option.bind_eq_some_iff.mp h
    split at hpos
    · next hlt => exact ⟨pos, hlt, hmul, Option.some.inj hpos⟩
    · cases hpos
  · rintro ⟨pos, hlt, hmul, rfl⟩
    rw [hmul, Option.bind_some, if_pos hlt, Option.map_some]

/-- A part of a source: what has been written of it is right, and nothing lies beyond its end. -/
structure PartOf (source : Bytes) (size : Nat) (done : Nat → Prop) (file : Bytes) : Prop where
  length : file.length ≤ source.length
  bytes : ∀ p < source.length, done (p / size) → file[p]? = source[p]?

namespace PartOf

variable {source file : Bytes} {size : Nat} {done : Nat → Prop}

theorem nil (source : Bytes) (size : Nat) : PartOf source size (fun _ => False) [] where
  length := Nat.zero_le _
  bytes _ _ h := h.elim

/-- A piece is written at its place, whether or not those before it are there. -/
theorem writeAt (h : PartOf source size done file) (hsize : 0 < size) (index : Nat) :
    PartOf source size (fun i => done i ∨ i = index)
      (writeAt file (index * size) (piece source size index)) := by
  have hlen := length_piece source size index
  by_cases hnil : piece source size index = []
  · -- a piece beyond the end has no bytes
    rw [P2PTransfer.writeAt, if_pos hnil]
    rw [hnil, List.length_nil] at hlen
    refine ⟨h.length, fun p hp hdone => ?_⟩
    rcases hdone with hdone | rfl
    · exact h.bytes p hp hdone
    · have := Nat.div_mul_le_self p size
      omega
  · have hpos := List.length_pos_iff.mpr hnil
    constructor
    · rw [length_writeAt_of_ne_nil hnil]
      have := h.length
      omega
    · intro p hp hdone
      by_cases hin : index * size ≤ p ∧ p < index * size + (piece source size index).length
      · obtain ⟨q, rfl⟩ := Nat.exists_eq_add_of_le hin.1
        rw [getElem?_writeAt_of_inside (by omega), getElem?_piece (by omega)]
      · have hother : p / size ≠ index := by
          rintro rfl
          have := Nat.div_mul_le_self p size
          have := Nat.lt_div_mul_add (a := p) hsize
          omega
        have hold := h.bytes p hp (hdone.resolve_right hother)
        have hfile : p < file.length := by
          rw [List.getElem?_eq_getElem hp] at hold
          exact (List.getElem?_eq_some_iff.mp hold).1
        rw [getElem?_writeAt_of_outside hfile (by omega), hold]

/-- With all pieces the part is the source. -/
theorem eq_source (h : PartOf source size done file)
    (hall : ∀ p < source.length, done (p / size)) : file = source := by
  apply List.ext_getElem?
  intro p
  by_cases hp : p < source.length
  · exact h.bytes p hp (hall p hp)
  · have := h.length
    rw [List.getElem?_eq_none (by omega), List.getElem?_eq_none (by omega)]

end PartOf

section Written

variable {checks : Bool} {source : Bytes} {m : TransferMetadata C}

/-- A file that is created is empty before its first write. -/
theorem writeChunks_absent {order : List Nat} (h : order ≠ []) :
    writeChunks checks source m order none = writeChunks checks source m order (some []) := by
  cases order with
  | nil => exact absurd rfl h
  | cons index order => rfl

/-- Where the chunks lie as the metadata says, every write is right. -/
theorem Partition.exists_writeChunks (hpart : Partition source m) (checks : Bool)
    (hfile : source.length < 2 ^ 63) (order : List Nat) {done : Nat → Prop} {file : Bytes}
    (hlt : ∀ i ∈ order, i < m.totalChunks) (h : PartOf source m.chunkSize done file) :
    ∃ out, writeChunks checks source m order (some file) = some (some out) ∧
      PartOf source m.chunkSize (fun i => done i ∨ i ∈ order) out := by
  induction order generalizing done file with
  | nil => exact ⟨file, rfl, h.length, fun p hp hd => h.bytes p hp (by simpa using hd)⟩
  | cons index order ih =>
    have hle := hpart.mul_le (hlt index List.mem_cons_self)
    have hwrite : processReceivedChunk checks (some file) index m.chunkSize
        (prepareChunk source m index) =
          some (writeAt file (index * m.chunkSize) (piece source m.chunkSize index)) :=
      processReceivedChunk_eq_some.mpr ⟨_, by omega, mulU64_of_lt (by omega),
        by rw [hpart.prepareChunk_eq, Option.getD_some]⟩
    obtain ⟨out, hout, hdone⟩ := ih (fun i hi => hlt i (List.mem_cons_of_mem _ hi))
      (h.writeAt hpart.pos index)
    refine ⟨out, ?_, hdone.length, fun p hp hd => hdone.bytes p hp ?_⟩
    · rw [writeChunks, hwrite, Option.bind_some, hout]
    · rwa [or_assoc, ← List.mem_cons]

/-- Every chunk that has been written lies in the result. -/
theorem exists_pos_of_writeChunks {order : List Nat} {file : Option Bytes} {out : Bytes}
    (h : writeChunks checks source m order file = some (some out)) :
    (∀ content, file = some content → content.length ≤ out.length) ∧
      ∀ i ∈ order, ∃ pos < 2 ^ 63, mulU64 checks i m.chunkSize = some pos ∧
        (prepareChunk source m i ≠ [] → pos + (prepareChunk source m i).length ≤ out.length) := by
  induction order generalizing file with
  | nil =>
    obtain rfl := Option.some.inj h
    exact ⟨fun content hc => (Option.some.inj hc) ▸ Nat.le_refl _, by simp⟩
  | cons index order ih =>
    obtain ⟨written, hwrite, hrest⟩ := Option.bind_eq_some_iff.mp h
    obtain ⟨hlen, hothers⟩ := ih hrest
    obtain ⟨pos, hlt, hmul, rfl⟩ := processReceivedChunk_eq_some.mp hwrite
    have hgrows := hlen _ rfl
    constructor
    · rintro content rfl
      exact (length_le_writeAt content pos _).trans hgrows
    · intro i hi
      rcases List.mem_cons.mp hi with rfl | hi
      · exact ⟨pos, hlt, hmul, fun hne => (le_length_writeAt _ pos hne).trans hgrows⟩
      · exact hothers i hi

/-- A multiple that is too large for 64 bits comes after one that is no position of a file. -/
theorem exists_multiple {size n : Nat} (hsize : size < 2 ^ 64) (hn : 2 ^ 64 ≤ n * size) :
    ∃ i ≤ n, 2 ^ 63 ≤ i * size ∧ i * size < 2 ^ 64 := by
  have hpos : 0 < size := Nat.pos_of_ne_zero fun hz => by
    rw [hz, Nat.mul_zero] at hn
    omega
  by_cases hbig : 2 ^ 63 ≤ size
  · refine ⟨1, ?_, by omega, by omega⟩
    by_contra hzero
    rw [show n = 0 by omega, Nat.zero_mul] at hn
    omega
  · refine ⟨(2 ^ 64 - 1) / size, ?_, ?_, ?_⟩
    · exact Nat.div_le_of_le_mul (by rw [Nat.mul_comm]; omega)
    · have := Nat.lt_div_mul_add (a := 2 ^ 64 - 1) hpos
      omega
    · have := Nat.div_mul_le_self (2 ^ 64 - 1) size
      omega

/-- Where the chunker takes a smaller chunk size than the metadata has and the file has several
chunks, no order of the writes makes the source of them. -/
theorem writeChunks_ne_source (hdesc : Describes source m) (hsize : m.chunkSize < 2 ^ 64)
    (hcap : (Chunker.new m.chunkSize m.fileSize).chunkSize < m.chunkSize)
    (hlong : (Chunker.new m.chunkSize m.fileSize).chunkSize < source.length) {order : List Nat}
    (hall : ∀ i < m.totalChunks, i ∈ order) (file : Option Bytes) :
    writeChunks checks source m order file ≠ some (some source) := by
  intro h
  obtain ⟨-, hplace⟩ := exists_pos_of_writeChunks h
  obtain ⟨hne, hlast⟩ := hdesc.length_lt_last hcap hlong
  have htotal := hdesc.totalChunks_pos
  by_cases hlt : (m.totalChunks - 1) * m.chunkSize < 2 ^ 64
  · obtain ⟨pos, -, hmul, hend⟩ := hplace (m.totalChunks - 1) (hall _ (by omega))
    obtain rfl := Option.some.inj ((mulU64_of_lt hlt).symm.trans hmul)
    have := hend (List.ne_nil_of_length_pos hne)
    omega
  · obtain ⟨i, hi, hlow, hhigh⟩ := exists_multiple hsize (Nat.le_of_not_lt hlt)
    obtain ⟨pos, hpos, hmul, -⟩ := hplace i (hall _ (by omega))
    obtain rfl := Option.some.inj ((mulU64_of_lt hhigh).symm.trans hmul)
    omega

/-- So it is with the metadata of a file above the maximal chunk size, for a chunk size above it. -/
theorem writeChunks_createMetadata_ne {sessionId fileName : Text} {chunkSize : Nat}
    {forceRestart : Bool} (hsize : chunkSize < 2 ^ 64) (hbig : maxChunkSize < chunkSize)
    (hlong : maxChunkSize < source.length) :
    writeChunks checks source (createMetadata C sessionId fileName source chunkSize forceRestart)
      (List.range
        (createMetadata C sessionId fileName source chunkSize forceRestart).totalChunks) none ≠
      some (some source) := by
  have hdesc := Describes.createMetadata (C := C) sessionId fileName source chunkSize forceRestart
  have hmin : minChunkSize ≤ maxChunkSize := by decide
  have hraw : minChunkSize < 2 ^ 64 := by decide
  have hcap : (Chunker.new (max chunkSize minChunkSize) source.length).chunkSize = maxChunkSize := by
    show max minChunkSize (min maxChunkSize (max chunkSize minChunkSize)) = maxChunkSize
    omega
  refine writeChunks_ne_source hdesc ?_ ?_ ?_ (fun i hi => List.mem_range.mpr hi) none
  · show max chunkSize minChunkSize < 2 ^ 64
    omega
  · show (Chunker.new (max chunkSize minChunkSize) source.length).chunkSize <
      max chunkSize minChunkSize
    omega
  · show (Chunker.new (max chunkSize minChunkSize) source.length).chunkSize < source.length
    omega

end Written

/-- **Round trip.** The chunks of a file, written in any order into an absent destination, are
the file exactly when the chunk size or the file is not above the maximal chunk size. -/
theorem chunks_round_trip_iff (checks : Bool) (sessionId fileName : Text) (source : Bytes)
    (chunkSize : Nat) (forceRestart : Bool) (hfile : source.length < 2 ^ 63)
    (hsize : chunkSize < 2 ^ 64) :
    (∀ order, order.Perm
        (List.range (createMetadata C sessionId fileName source chunkSize forceRestart).totalChunks) →
      writeChunks checks source (createMetadata C sessionId fileName source chunkSize forceRestart)
        order none = some (some source)) ↔
    chunkSize ≤ maxChunkSize ∨ source.length ≤ maxChunkSize := by
  have hdesc := Describes.createMetadata (C := C) sessionId fileName source chunkSize forceRestart
  constructor
  · intro h
    by_contra hlarge
    obtain ⟨hbig, hlong⟩ := not_or.mp hlarge
    exact writeChunks_createMetadata_ne hsize (Nat.not_le.mp hbig) (Nat.not_le.mp hlong)
      (h _ (List.Perm.refl _))
  · intro hfits order hperm
    have hpart : Partition source (createMetadata C sessionId fileName source chunkSize forceRestart) :=
      Partition.createMetadata hfits
    have hmem : ∀ i, i ∈ order ↔
        i < (createMetadata C sessionId fileName source chunkSize forceRestart).totalChunks :=
      fun i => hperm.mem_iff.trans List.mem_range
    have hne : order ≠ [] := List.ne_nil_of_mem ((hmem 0).mpr hdesc.totalChunks_pos)
    obtain ⟨out, hout, hdone⟩ := hpart.exists_writeChunks checks hfile order
      (fun i hi => (hmem i).mp hi) (PartOf.nil source _)
    have hsource : out = source :=
      hdone.eq_source fun p hp => .inr ((hmem _).mpr (hpart.div_lt hp))
    rw [writeChunks_absent hne, hout, hsource]

/-- A chunk of the minimal size and one more byte. -/
def twoChunkSource : Bytes := List.replicate minChunkSize 0 ++ [1]

theorem length_twoChunkSource : twoChunkSource.length = minChunkSize + 1 := by
  rw [twoChunkSource, List.length_append, List.length_replicate, List.length_singleton]

/-- Its second chunk is written first. -/
theorem swapped_chunks_round_trip :
    writeChunks true twoChunkSource (createMetadata .plain [] ['f'] twoChunkSource 0 false) [1, 0]
      none = some (some twoChunkSource) := by
  have htotal : (createMetadata .plain [] ['f'] twoChunkSource 0 false).totalChunks = 2 := by
    simp only [createMetadata, length_twoChunkSource, Chunker.totalChunks, Chunker.new, minChunkSize,
      maxChunkSize]
    decide
  have hsmall : minChunkSize + 1 < 2 ^ 63 := by decide
  apply (chunks_round_trip_iff true [] ['f'] twoChunkSource 0 false
    (by rw [length_twoChunkSource]; exact hsmall) (by decide)).mpr (.inl (Nat.zero_le _))
  rw [htotal]
  exact List.Perm.swap 0 1 []

/-- A file of one byte more than the maximal chunk size. -/
def longSource : Bytes := List.replicate (maxChunkSize + 1) 0

/-- Its two chunks, for a chunk size as large as the file, do not come together. -/
theorem long_chunks_not_round_trip :
    ¬ ∀ order, order.Perm (List.range
        (createMetadata .plain [] ['f'] longSource (maxChunkSize + 1) false).totalChunks) →
      writeChunks true longSource
        (createMetadata .plain [] ['f'] longSource (maxChunkSize + 1) false) order none =
          some (some longSource) := by
  intro h
  have hlong : maxChunkSize < longSource.length := by
    rw [longSource, List.length_replicate]
    exact Nat.lt_succ_self _
  exact writeChunks_createMetadata_ne (by decide) (Nat.lt_succ_self _) hlong
    (h _ (List.Perm.refl _))

end P2PTransfer
