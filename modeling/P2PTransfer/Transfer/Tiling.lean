import P2PTransfer.Transfer.Mapped

/-!
# The chunks tile the file

The chunks of a `Chunker` lie one after the other from the start of the file to its end, and
the machine arithmetic that computes them does not overflow, for every size of 64 bits.

## Main definitions

- `Chunker.tryTotalChunks` — `total_chunks` with its machine arithmetic
- `Chunker.Tiles` — where the chunks begin and end

## Main results

- `chunker_tiles` — the chunks of every chunker tile its file
- `existsUnique_chunk` — every byte lies in one chunk
- `sum_chunkLength` — the lengths add up to the size of the file
-/

namespace P2PTransfer

open Machine64

/-- `u64::div_ceil`, which adds one to the quotient if there is a remainder. -/
def divCeilU64 (checks : Bool) (a b : Nat) : Option Nat := do
  let quotient ← divU64 a b
  if 0 < a % b then addU64 checks quotient 1 else return quotient

namespace Chunker

def tryTotalChunks (checks : Bool) (c : Chunker) : Option Nat :=
  if c.fileSize = 0 then some 1 else divCeilU64 checks c.fileSize c.chunkSize

/-- The chunks tile the file, and in a build with overflow checks and in one without the
machine arithmetic gives them. -/
structure Tiles (c : Chunker) : Prop where
  first : c.chunkOffset 0 = 0
  next : ∀ i, i + 1 < c.totalChunks → c.chunkOffset (i + 1) = c.chunkOffset i + c.chunkLength i
  last : ∀ i, i + 1 = c.totalChunks → c.chunkOffset i + c.chunkLength i = c.fileSize
  full : ∀ i, i + 1 < c.totalChunks → c.chunkLength i = c.chunkSize
  /-- The cast of a length to `usize` is exact. -/
  le : ∀ i, c.chunkLength i ≤ c.chunkSize
  nonempty : c.fileSize ≠ 0 → ∀ i < c.totalChunks, 0 < c.chunkLength i
  tryTotalChunks : ∀ checks, c.tryTotalChunks checks = some c.totalChunks
  tryChunkOffset : ∀ checks, ∀ i < c.totalChunks,
    c.tryChunkOffset checks i = some (c.chunkOffset i)
  tryChunkLength : ∀ checks, ∀ i < c.totalChunks,
    c.tryChunkLength checks i = some (c.chunkLength i)
  beyond : ∀ checks i, c.totalChunks ≤ i → c.chunkOffset i < 2 ^ 64 →
    c.tryChunkLength checks i = some 0

section Lengths

variable (c : Chunker) {index : Nat}

theorem chunkOffset_succ (index : Nat) :
    c.chunkOffset (index + 1) = c.chunkOffset index + c.chunkSize := Nat.succ_mul _ _

theorem chunkLength_of_le (h : c.chunkOffset (index + 1) ≤ c.fileSize) :
    c.chunkLength index = c.chunkSize := by
  rw [chunkOffset_succ] at h
  exact Nat.min_eq_right (by omega)

/-- A chunk ends where the next one begins, or at the end of the file. -/
theorem chunkOffset_add_chunkLength (h : index < c.totalChunks) :
    c.chunkOffset index + c.chunkLength index = min (c.chunkOffset (index + 1)) c.fileSize := by
  have hle := c.chunkOffset_le h
  rw [chunkLength, chunkOffset_succ]
  omega

theorem chunkLength_pos (h : c.chunkOffset index < c.fileSize) : 0 < c.chunkLength index := by
  have := c.chunkSize_pos
  rw [chunkLength]
  omega

theorem chunkOffset_mono {i j : Nat} (h : i ≤ j) : c.chunkOffset i ≤ c.chunkOffset j :=
  Nat.mul_le_mul_right _ h

/-- Behind the chunks nothing is left. -/
theorem chunkLength_of_totalChunks_le (h : c.totalChunks ≤ index) : c.chunkLength index = 0 := by
  have := c.fileSize_le.trans (c.chunkOffset_mono h)
  rw [chunkLength]
  omega

end Lengths

section Arithmetic

variable {c : Chunker} {checks : Bool} {index : Nat}

theorem tryChunkOffset_of_lt (h : c.chunkOffset index < 2 ^ 64) :
    c.tryChunkOffset checks index = some (c.chunkOffset index) := mulU64_of_lt h

theorem tryChunkLength_of_lt (h : c.chunkOffset index < 2 ^ 64) :
    c.tryChunkLength checks index = some (c.chunkLength index) := by
  rw [Chunker.tryChunkLength, tryChunkOffset_of_lt h]
  rfl

/-- The quotient, rounded up. -/
theorem divCeilU64_eq {a b : Nat} (ha : a < 2 ^ 64) (hb : 1 < b) :
    divCeilU64 checks a b = some ((a + b - 1) / b) := by
  have hpos : 0 < b := by omega
  have hquotient : divU64 a b = some (a / b) := if_neg (by omega)
  have hsplit := Nat.mod_add_div a b
  have hmod := Nat.mod_lt a hpos
  rw [divCeilU64, hquotient]
  show (if 0 < a % b then addU64 checks (a / b) 1 else some (a / b)) = _
  split
  · next hrest =>
    have hsum : a % b - 1 + b * (a / b + 1) = a + b - 1 := by
      rw [Nat.mul_succ]
      omega
    have hceil : (a + b - 1) / b = a / b + 1 :=
      ((Nat.div_mod_unique hpos).mpr ⟨hsum, by omega⟩).1
    have hhalf : a / b ≤ a / 2 := Nat.div_le_div_left hb (by omega)
    rw [hceil]
    exact narrow_of_lt (by omega)
  · next hexact =>
    have hsum : b - 1 + b * (a / b) = a + b - 1 := by omega
    have hceil : (a + b - 1) / b = a / b := ((Nat.div_mod_unique hpos).mpr ⟨hsum, by omega⟩).1
    rw [hceil]

theorem tryTotalChunks_eq (hfile : c.fileSize < 2 ^ 64) :
    c.tryTotalChunks checks = some c.totalChunks := by
  have hsize : 1 < c.chunkSize := Nat.lt_of_lt_of_le (by decide) c.min_le
  rw [Chunker.tryTotalChunks, totalChunks]
  split
  · rfl
  · exact divCeilU64_eq hfile hsize

end Arithmetic

/-- A chunker for a size of 64 bits tiles the file. -/
theorem tiles_of_lt {c : Chunker} (hfile : c.fileSize < 2 ^ 64) : c.Tiles where
  first := Nat.zero_mul _
  next i hi := by
    have hle := c.chunkOffset_le hi
    rw [c.chunkLength_of_le hle, chunkOffset_succ]
  last i hi := by
    have hend := c.fileSize_le
    rw [← hi] at hend
    rw [c.chunkOffset_add_chunkLength (by omega), Nat.min_eq_right hend]
  full i hi := c.chunkLength_of_le (c.chunkOffset_le hi)
  le i := Nat.min_le_right _ _
  nonempty hempty i hi := c.chunkLength_pos ((c.lt_totalChunks_iff hempty).mp hi)
  tryTotalChunks checks := tryTotalChunks_eq hfile
  tryChunkOffset checks i hi :=
    tryChunkOffset_of_lt (Nat.lt_of_le_of_lt (c.chunkOffset_le hi) hfile)
  tryChunkLength checks i hi :=
    tryChunkLength_of_lt (Nat.lt_of_le_of_lt (c.chunkOffset_le hi) hfile)
  beyond checks i hi hlt := by
    rw [tryChunkLength_of_lt hlt, c.chunkLength_of_totalChunks_le hi]

section Bytes

variable (c : Chunker)

/-- Every byte of the file lies in one chunk. -/
theorem existsUnique_chunk {p : Nat} (hp : p < c.fileSize) :
    ∃! i, i < c.totalChunks ∧ c.chunkOffset i ≤ p ∧ p < c.chunkOffset i + c.chunkLength i := by
  have hpos := c.chunkSize_pos
  have hlow : c.chunkOffset (p / c.chunkSize) ≤ p := Nat.div_mul_le_self p c.chunkSize
  have hhigh : p < c.chunkOffset (p / c.chunkSize + 1) := by
    rw [chunkOffset_succ]
    exact Nat.lt_div_mul_add hpos
  have hlt : p / c.chunkSize < c.totalChunks :=
    (c.lt_totalChunks_iff (by omega)).mpr (Nat.lt_of_le_of_lt hlow hp)
  refine ⟨p / c.chunkSize, ⟨hlt, hlow, ?_⟩, ?_⟩
  · rw [c.chunkOffset_add_chunkLength hlt]
    exact Nat.lt_min.mpr ⟨hhigh, hp⟩
  · rintro i ⟨hi, hle, hend⟩
    rw [c.chunkOffset_add_chunkLength hi, Nat.lt_min, chunkOffset_succ] at hend
    exact (Nat.div_eq_of_lt_le hle (by rw [Nat.succ_mul]; exact hend.1)).symm

/-- The lengths of the first chunks add up to where they end. -/
theorem sum_chunkLength_take {n : Nat} (h : n ≤ c.totalChunks) :
    ((List.range n).map c.chunkLength).sum = min (c.chunkOffset n) c.fileSize := by
  induction n with
  | zero =>
    rw [List.range_zero, List.map_nil, List.sum_nil, chunkOffset, Nat.zero_mul]
    exact (Nat.zero_min _).symm
  | succ n ih =>
    have hle := c.chunkOffset_le h
    rw [List.range_succ, List.map_append, List.sum_append, ih (Nat.le_of_succ_le h),
      Nat.min_eq_left hle, List.map_singleton, List.sum_singleton,
      c.chunkOffset_add_chunkLength h]

/-- The lengths of the chunks add up to the size of the file. -/
theorem sum_chunkLength :
    ((List.range c.totalChunks).map c.chunkLength).sum = c.fileSize := by
  rw [c.sum_chunkLength_take (Nat.le_refl _), Nat.min_eq_right c.fileSize_le]

end Bytes

end Chunker

/-- **The chunks tile the file**, for every requested chunk size and every size of 64 bits. -/
theorem chunker_tiles (chunkSize : Nat) (fileSize : UInt64) :
    (Chunker.new chunkSize fileSize.toNat).Tiles :=
  Chunker.tiles_of_lt fileSize.toNat_lt

end P2PTransfer
