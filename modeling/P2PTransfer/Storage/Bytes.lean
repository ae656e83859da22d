import Mathlib

/-!
# File contents

The contents of files as byte lists, the writes of the standard library on them,
and what a read of a source file may return.

## Main definitions

- `writeAt`, `setLen` — a write at a position of a file, and its length set
- `piece` — a content in pieces of one size
- `BufWriter.writeAll` — a write through a buffer
- `Disk` — the answers that reads of a source file may give
-/

namespace P2PTransfer

abbrev Bytes := List UInt8

/-- Bytes that carry a number are equal when both are. -/
instance : LawfulBEq (Nat × Bytes) := inferInstance

/-- The content after writing `data` at `pos`; a gap before `pos` reads as zeros. Without
data nothing is written. -/
def writeAt (content : Bytes) (pos : Nat) (data : Bytes) : Bytes :=
  if data = [] then content
  else content.take pos ++ List.replicate (pos - content.length) 0 ++ data ++
    content.drop (pos + data.length)

/-- A write at the end appends. -/
theorem writeAt_length_self (content data : Bytes) :
    writeAt content content.length data = content ++ data := by
  unfold writeAt
  split
  · next hnil => rw [hnil, List.append_nil]
  · rw [List.take_length, Nat.sub_self, List.replicate_zero, List.append_nil,
      List.drop_eq_nil_of_le (Nat.le_add_right _ _), List.append_nil]

theorem writeAt_length {content : Bytes} {pos : Nat} (data : Bytes) (h : pos ≤ content.length) :
    (writeAt content pos data).length = max content.length (pos + data.length) := by
  unfold writeAt
  split
  · next hnil =>
    rw [hnil, List.length_nil]
    omega
  · simp only [List.length_append, List.length_take, List.length_replicate, List.length_drop]
    omega

theorem length_writeAt_of_ne_nil {content data : Bytes} {pos : Nat} (h : data ≠ []) :
    (writeAt content pos data).length = max content.length (pos + data.length) := by
  rw [writeAt, if_neg h]
  simp only [List.length_append, List.length_take, List.length_replicate, List.length_drop]
  omega

/-- A file does not get shorter by a write, and what is written is in it. -/
theorem length_le_writeAt (content : Bytes) (pos : Nat) (data : Bytes) :
    content.length ≤ (writeAt content pos data).length := by
  unfold writeAt
  split
  · exact Nat.le_refl _
  · simp only [List.length_append, List.length_take, List.length_replicate, List.length_drop]
    omega

theorem le_length_writeAt (content : Bytes) (pos : Nat) {data : Bytes} (h : data ≠ []) :
    pos + data.length ≤ (writeAt content pos data).length := by
  rw [writeAt, if_neg h]
  simp only [List.length_append, List.length_take, List.length_replicate, List.length_drop]
  omega

/-- A write leaves the bytes beside it. -/
theorem getElem?_writeAt_of_outside {content data : Bytes} {pos p : Nat}
    (hp : p < content.length) (h : p < pos ∨ pos + data.length ≤ p) :
    (writeAt content pos data)[p]? = content[p]? := by
  unfold writeAt
  split
  · rfl
  rw [List.append_assoc, List.append_assoc]
  rcases h with h | h
  · rw [List.getElem?_append_left (by rw [List.length_take]; omega), List.getElem?_take_of_lt h]
  · have hgap : pos - content.length = 0 := by omega
    have htake : (content.take pos).length = pos := by rw [List.length_take]; omega
    rw [List.getElem?_append_right (by omega), htake, hgap, List.replicate_zero, List.nil_append,
      List.getElem?_append_right (by omega), List.getElem?_drop]
    congr 1
    omega

theorem getElem?_writeAt_of_inside {content data : Bytes} {pos p : Nat} (hp : p < data.length) :
    (writeAt content pos data)[pos + p]? = data[p]? := by
  have hne : data ≠ [] := List.ne_nil_of_length_pos (Nat.zero_lt_of_lt hp)
  have hlen : (content.take pos ++ List.replicate (pos - content.length) 0).length = pos := by
    rw [List.length_append, List.length_take, List.length_replicate]
    omega
  rw [writeAt, if_neg hne, List.append_assoc, List.getElem?_append_right (by omega), hlen,
    Nat.add_sub_cancel_left, List.getElem?_append_left hp]

/-- A write in two parts. -/
theorem writeAt_append (content : Bytes) (pos : Nat) (data rest : Bytes) :
    writeAt (writeAt content pos data) (pos + data.length) rest =
      writeAt content pos (data ++ rest) := by
  by_cases hdata : data = []
  · rw [hdata, List.nil_append, List.length_nil, Nat.add_zero, writeAt, writeAt, if_pos rfl]
    rfl
  by_cases hrest : rest = []
  · rw [hrest, List.append_nil]
    exact if_pos rfl
  have hle := le_length_writeAt content pos hdata
  have hne : data ++ rest ≠ [] := List.append_ne_nil_of_left_ne_nil hdata rest
  have hlen : (content.take pos ++ List.replicate (pos - content.length) 0 ++ data).length =
      pos + data.length := by
    rw [List.length_append, List.length_append, List.length_take, List.length_replicate]
    omega
  rw [writeAt, if_neg hrest, Nat.sub_eq_zero_of_le hle, List.replicate_zero, List.append_nil]
  rw [writeAt, if_neg hdata, List.take_left' hlen, List.drop_append, List.drop_eq_nil_of_le
    (by omega), List.nil_append, hlen, List.drop_drop, writeAt, if_neg hne, List.length_append]
  have hoff : pos + data.length + (pos + data.length + rest.length - (pos + data.length)) =
      pos + (data.length + rest.length) := by omega
  rw [hoff, ← List.append_assoc]

section Parts

variable {content file data : Bytes} {pos p : Nat}

/-- Writing a part of a content at its place leaves the length, -/
theorem length_writeAt_part (hlen : file.length = content.length)
    (hdata : data <+: content.drop pos) : (writeAt file pos data).length = content.length := by
  by_cases hnil : data = []
  · rw [writeAt, if_pos hnil, hlen]
  · have hle := hdata.length_le
    have hpos := List.length_pos_iff.mpr hnil
    rw [List.length_drop] at hle
    rw [writeAt_length data (by omega)]
    omega

/-- and puts there what the content has. -/
theorem getElem?_writeAt_part (hlen : file.length = content.length)
    (hdata : data <+: content.drop pos)
    (hgood : file[p]? = content[p]? ∨ pos ≤ p ∧ p < pos + data.length) :
    (writeAt file pos data)[p]? = content[p]? := by
  by_cases hin : pos ≤ p ∧ p < pos + data.length
  · obtain ⟨q, rfl⟩ := Nat.exists_eq_add_of_le hin.1
    have hq : q < data.length := by omega
    obtain ⟨rest, hrest⟩ := hdata
    rw [getElem?_writeAt_of_inside hq, ← List.getElem?_drop, ← hrest, List.getElem?_append_left hq]
  · have hold := hgood.resolve_right hin
    by_cases hp : p < file.length
    · rw [getElem?_writeAt_of_outside hp (by omega), hold]
    · rw [List.getElem?_eq_none (by rw [length_writeAt_part hlen hdata]; omega),
        List.getElem?_eq_none (by omega)]

end Parts

/-- A content in pieces of one size. -/
def piece (content : Bytes) (size index : Nat) : Bytes := (content.drop (index * size)).take size

section Pieces

variable {content : Bytes} {size index p : Nat}

theorem length_piece (content : Bytes) (size index : Nat) :
    (piece content size index).length = min size (content.length - index * size) := by
  rw [piece, List.length_take, List.length_drop]

theorem getElem?_piece (hp : p < size) :
    (piece content size index)[p]? = content[index * size + p]? := by
  rw [piece, List.getElem?_take_of_lt hp, List.getElem?_drop]

theorem piece_part (content : Bytes) (size index : Nat) :
    piece content size index <+: content.drop (index * size) :=
  List.take_prefix _ _

/-- Where the bytes of a piece are. -/
theorem mem_piece (hpos : 0 < size) (hp : p < content.length) (hdiv : p / size = index) :
    index * size ≤ p ∧ p < index * size + (piece content size index).length := by
  have := Nat.div_mul_le_self p size
  have := Nat.lt_div_mul_add (a := p) hpos
  rw [hdiv] at *
  rw [length_piece]
  omega

theorem flatten_pieces (content : Bytes) (size n : Nat) :
    ((List.range n).map (piece content size)).flatten = content.take (n * size) := by
  induction n with
  | zero => simp
  | succ n ih =>
    rw [List.range_succ, List.map_append, List.flatten_append, ih, List.map_singleton,
      List.flatten_singleton, piece, Nat.succ_mul, ← List.take_add]

end Pieces

/-- `set_len`: the content is cut, or extended with zeros. -/
def setLen (content : Bytes) (n : Nat) : Bytes :=
  content.take n ++ List.replicate (n - content.length) 0

@[simp] theorem length_setLen (content : Bytes) (n : Nat) : (setLen content n).length = n := by
  rw [setLen, List.length_append, List.length_take, List.length_replicate]
  omega

theorem getElem?_setLen {content : Bytes} {n p : Nat} (hn : p < n) (hp : p < content.length) :
    (setLen content n)[p]? = content[p]? := by
  rw [setLen, List.getElem?_append_left (by rw [List.length_take]; omega),
    List.getElem?_take_of_lt hn]

/-- Appending the source from the rounded length on gives the source exactly when
nothing was rounded off. -/
theorem append_rounded_eq_iff {existing source : Bytes} {block : Nat} :
    existing ++ source.drop (existing.length / block * block) = source ↔
      block ∣ existing.length ∧ existing <+: source := by
  have hle : existing.length / block * block ≤ existing.length := Nat.div_mul_le_self _ _
  constructor
  · intro h
    have hlen := congrArg List.length h
    rw [List.length_append, List.length_drop] at hlen
    refine ⟨⟨existing.length / block, ?_⟩, ⟨_, h⟩⟩
    rw [Nat.mul_comm]
    omega
  · rintro ⟨hdvd, rest, rfl⟩
    rw [Nat.div_mul_cancel hdvd, List.drop_left]

namespace BufWriter

/-- `BufWriter::write_all` on the pair of the file and the buffer: what does not
fit flushes the buffer first, and what is as large as the buffer bypasses it. -/
def writeAll (capacity : Nat) (file buf data : Bytes) : Bytes × Bytes :=
  if buf.length + data.length < capacity then (file, buf ++ data)
  else
    let flushed := if capacity - buf.length < data.length then (file ++ buf, []) else (file, buf)
    if capacity ≤ data.length then (flushed.1 ++ data, flushed.2) else (flushed.1, flushed.2 ++ data)

/-- No byte is lost or reordered by the buffer. -/
theorem writeAll_append (capacity : Nat) (file buf data : Bytes) (hb : buf.length ≤ capacity) :
    (writeAll capacity file buf data).1 ++ (writeAll capacity file buf data).2 =
      file ++ buf ++ data := by
  unfold writeAll
  split
  · simp
  · next hfit =>
    dsimp only
    by_cases hfl : capacity - buf.length < data.length
    · by_cases hcap : capacity ≤ data.length <;> simp [hfl, hcap]
    · by_cases hcap : capacity ≤ data.length
      · -- data as large as the free space and as the buffer: the buffer is empty
        have he : buf = [] := List.eq_nil_of_length_eq_zero (by omega)
        simp [he, hcap]
      · simp [hfl, hcap]

theorem writeAll_buf_le (capacity : Nat) (file buf data : Bytes) (hb : buf.length ≤ capacity) :
    (writeAll capacity file buf data).2.length ≤ capacity := by
  unfold writeAll
  split
  · simp only [List.length_append]
    omega
  · dsimp only
    by_cases hfl : capacity - buf.length < data.length
    · by_cases hcap : capacity ≤ data.length
      · simp [hfl, hcap]
      · simp only [hfl, hcap, if_true, if_false, List.nil_append]
        omega
    · by_cases hcap : capacity ≤ data.length
      · simpa [hfl, hcap] using hb
      · simp only [hfl, hcap, if_false, List.length_append]
        omega

/-- The file is only appended to, and what is appended comes from the buffer and the data. -/
theorem writeAll_extends (capacity : Nat) (file buf data : Bytes) :
    ∃ new, (writeAll capacity file buf data).1 = file ++ new ∧
      new.length + (writeAll capacity file buf data).2.length = buf.length + data.length := by
  unfold writeAll
  split
  · exact ⟨[], by simp, by simp⟩
  · dsimp only
    by_cases hfl : capacity - buf.length < data.length <;> by_cases hcap : capacity ≤ data.length
    · exact ⟨buf ++ data, by simp [hfl, hcap], by simp [hfl, hcap]⟩
    · exact ⟨buf, by simp [hfl, hcap], by simp [hfl, hcap]⟩
    · exact ⟨data, by simp [hfl, hcap], by simp [hfl, hcap, Nat.add_comm]⟩
    · exact ⟨[], by simp [hfl, hcap], by simp [hfl, hcap]⟩

end BufWriter

/-- The answers that a read at a position may give; an empty answer is the end
of the file. -/
abbrev Disk := Nat → Bytes → Bool

namespace Disk

/-- A source that nobody modifies: a read returns a part of what follows the
position, and nothing only at the end. -/
def ofFile (source : Bytes) : Disk := fun pos data =>
  data.isPrefixOf (source.drop pos) && (!data.isEmpty || (source.drop pos).isEmpty)

/-- A source of some length, whatever it holds when it is read. -/
def EndsAt (disk : Disk) (n : Nat) : Prop :=
  ∀ pos data, disk pos data → pos + data.length ≤ max pos n ∧ (data = [] → n ≤ pos)

/-- A source that may shrink, grow and change between two reads. -/
def any : Disk := fun _ _ => true

theorem ofFile_iff {source : Bytes} {pos : Nat} {data : Bytes} :
    ofFile source pos data ↔
      data <+: source.drop pos ∧ (data = [] → source.length ≤ pos) := by
  cases data with
  | nil => simp [ofFile]
  | cons b bs => simp [ofFile]

theorem ofFile_endsAt (source : Bytes) : (ofFile source).EndsAt source.length := by
  intro pos data h
  obtain ⟨hpart, hend⟩ := ofFile_iff.mp h
  have hle := hpart.length_le
  rw [List.length_drop] at hle
  exact ⟨by omega, hend⟩

/-- Reading on from a position extends what has been read. -/
theorem ofFile_take {source : Bytes} {pos : Nat} {data : Bytes} (h : ofFile source pos data) :
    source.drop pos = data ++ source.drop (pos + data.length) := by
  obtain ⟨rest, hr⟩ := (ofFile_iff.mp h).1
  rw [← List.drop_drop, ← hr, List.drop_left]

theorem ofFile_length {source : Bytes} {pos : Nat} {data : Bytes} (h : ofFile source pos data)
    (hne : data ≠ []) : pos + data.length ≤ source.length := by
  have hle := (ofFile_iff.mp h).1.length_le
  have hpos := List.length_pos_iff.mpr hne
  rw [List.length_drop] at hle
  omega

/-- A read has an answer: a byte where there is one, and nothing at the end. -/
theorem ofFile_answer (source : Bytes) (pos : Nat) :
    (∃ b, ofFile source pos [b]) ∨ ofFile source pos [] := by
  by_cases hlt : pos < source.length
  · refine .inl ⟨source[pos], ofFile_iff.mpr ⟨?_, by simp⟩⟩
    rw [List.drop_eq_getElem_cons hlt]
    exact ⟨source.drop (pos + 1), rfl⟩
  · exact .inr (ofFile_iff.mpr ⟨List.nil_prefix, fun _ => Nat.le_of_not_lt hlt⟩)

end Disk

end P2PTransfer
