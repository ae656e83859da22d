import P2PTransfer.Storage.Bytes

/-!
# Files that write in the background

A write through `tokio::fs::File` goes to the disk in pieces, and it is answered when the last of
them has been handed to another thread. The next operation waits for that thread. What the thread
fails to write is reported by the operation after that, and by `flush` at the latest.

## Main definitions

- `AsyncFile` — what is on the disk, and the piece that is on its way there
- `AsyncFile.given` — what the disk has once that piece has been written
- `AsyncFile.write`, `land`, `lose` — a write, and what becomes of its last piece
- `AsyncFile.Over` — a file that is being filled with a content
-/

namespace P2PTransfer

/-- The size of the pieces. -/
def maxBufSize : Nat := 2 * 1024 * 1024

/-- `tokio::fs::File`. What it fails to write it keeps as `last_write_err`, here with its text. -/
structure AsyncFile where
  content : Bytes
  inflight : Option (Nat × Bytes) := none
  lastWriteErr : Option (List Char) := none

namespace AsyncFile

/-- How many bytes of a write are on the disk when it is answered. -/
def ahead (data : Bytes) : Nat := (data.length - 1) / maxBufSize * maxBufSize

/-- What the disk has once everything has been written. -/
def given (f : AsyncFile) : Bytes :=
  match f.inflight with
  | none => f.content
  | some w => writeAt f.content w.1 w.2

/-- A write is begun when nothing is on its way. One that has data reports an error before. -/
def Accepts (f : AsyncFile) (data : Bytes) : Prop :=
  f.inflight = none ∧ (data = [] ∨ f.lastWriteErr = none)

instance (f : AsyncFile) (data : Bytes) : Decidable (f.Accepts data) :=
  inferInstanceAs (Decidable (_ ∧ _))

/-- `seek` and `write_all`. -/
def write (f : AsyncFile) (pos : Nat) (data : Bytes) : AsyncFile :=
  if data = [] then f
  else { f with content := writeAt f.content pos (data.take (ahead data)),
                inflight := some (pos + ahead data, data.drop (ahead data)) }

/-- `write_all` fails in one of the pieces that it waits for. -/
def fail (f : AsyncFile) (pos : Nat) (data : Bytes) (n : Nat) : AsyncFile :=
  { f with content := writeAt f.content pos (data.take n) }

/-- The last piece is written. -/
def land (f : AsyncFile) : AsyncFile := { f with content := f.given, inflight := none }

/-- Only the beginning of the last piece is written. -/
def lose (f : AsyncFile) (n : Nat) (detail : List Char) : AsyncFile where
  content := match f.inflight with
    | none => f.content
    | some w => writeAt f.content w.1 (w.2.take n)
  lastWriteErr := some detail

/-- The number of pieces on their way. -/
def pending (f : AsyncFile) : Nat := if f.inflight = none then 0 else 1

section Simp

variable (f : AsyncFile) (pos n : Nat) (data : Bytes) (detail : List Char)

@[simp] theorem inflight_land : f.land.inflight = none := rfl

@[simp] theorem inflight_lose : (f.lose n detail).inflight = none := rfl

@[simp] theorem inflight_fail : (f.fail pos data n).inflight = f.inflight := rfl

@[simp] theorem lastWriteErr_land : f.land.lastWriteErr = f.lastWriteErr := rfl

@[simp] theorem lastWriteErr_fail : (f.fail pos data n).lastWriteErr = f.lastWriteErr := rfl

@[simp] theorem lastWriteErr_write : (f.write pos data).lastWriteErr = f.lastWriteErr := by
  unfold write
  split <;> rfl

theorem pending_write_le : (f.write pos data).pending ≤ 1 := by
  unfold pending
  split <;> omega

theorem ahead_le : ahead data ≤ data.length :=
  (Nat.div_mul_le_self _ _).trans (Nat.sub_le _ _)

variable {f}

theorem given_of_idle (h : f.inflight = none) : f.given = f.content := by
  rw [given, h]

theorem given_fail (h : f.inflight = none) :
    (f.fail pos data n).given = writeAt f.content pos (data.take n) :=
  given_of_idle h

@[simp] theorem given_land : f.land.given = f.given := rfl

theorem pending_of_idle (h : f.inflight = none) : f.pending = 0 := if_pos h

theorem pending_land (h : f.inflight ≠ none) : f.land.pending < f.pending := by
  rw [pending_of_idle (inflight_land f), pending, if_neg h]
  exact Nat.zero_lt_one

/-- The pieces of a write are the write. -/
theorem given_write (h : f.inflight = none) :
    (f.write pos data).given = writeAt f.content pos data := by
  unfold write
  split
  · next hnil => rw [given_of_idle h, writeAt, if_pos hnil]
  · have hlen : (data.take (ahead data)).length = ahead data := by
      rw [List.length_take, Nat.min_eq_left (ahead_le data)]
    have happend := writeAt_append f.content pos (data.take (ahead data)) (data.drop (ahead data))
    rw [hlen, List.take_append_drop] at happend
    exact happend

end Simp

/-- A file of the length of a content, on its way to which is a part of that content. -/
structure Over (content : Bytes) (f : AsyncFile) : Prop where
  length : f.content.length = content.length
  part : ∀ w, f.inflight = some w → w.2 <+: content.drop w.1

namespace Over

variable {content data : Bytes} {f : AsyncFile} {pos n p : Nat} {detail : List Char}

theorem idle (hlen : f.content.length = content.length) (h : f.inflight = none) :
    Over content f where
  length := hlen
  part w hw := by rw [h] at hw; cases hw

theorem length_given (h : Over content f) : f.given.length = content.length := by
  unfold given
  split
  · exact h.length
  · next w hw => exact length_writeAt_part h.length (h.part w hw)

theorem write (h : Over content f) (hdata : data <+: content.drop pos) :
    Over content (f.write pos data) := by
  unfold AsyncFile.write
  split
  · exact h
  · refine ⟨length_writeAt_part h.length ((List.take_prefix _ _).trans hdata), fun w hw => ?_⟩
    obtain rfl := Option.some.inj hw
    rw [← List.drop_drop]
    exact hdata.drop _

theorem fail (h : Over content f) (hdata : data <+: content.drop pos) (n : Nat) :
    Over content (f.fail pos data n) where
  length := length_writeAt_part h.length ((List.take_prefix _ _).trans hdata)
  part := h.part

theorem land (h : Over content f) : Over content f.land :=
  .idle h.length_given rfl

theorem lose (h : Over content f) (n : Nat) (detail : List Char) :
    Over content (f.lose n detail) := by
  refine .idle ?_ rfl
  unfold AsyncFile.lose
  dsimp only
  split
  · exact h.length
  · next w hw =>
    exact length_writeAt_part h.length ((List.take_prefix _ _).trans (h.part w hw))

/-- What the disk has of the content stays there. -/
theorem content_write (h : Over content f) (hdata : data <+: content.drop pos)
    (hp : f.content[p]? = content[p]?) : (f.write pos data).content[p]? = content[p]? := by
  unfold AsyncFile.write
  split
  · exact hp
  · exact getElem?_writeAt_part h.length ((List.take_prefix _ _).trans hdata) (.inl hp)

theorem content_fail (h : Over content f) (hdata : data <+: content.drop pos)
    (hp : f.content[p]? = content[p]?) : (f.fail pos data n).content[p]? = content[p]? :=
  getElem?_writeAt_part h.length ((List.take_prefix _ _).trans hdata) (.inl hp)

theorem content_land (h : Over content f) (hp : f.content[p]? = content[p]?) :
    f.land.content[p]? = content[p]? := by
  show f.given[p]? = _
  unfold given
  split
  · exact hp
  · next w hw => exact getElem?_writeAt_part h.length (h.part w hw) (.inl hp)

theorem content_lose (h : Over content f) (hp : f.content[p]? = content[p]?) :
    (f.lose n detail).content[p]? = content[p]? := by
  unfold AsyncFile.lose
  dsimp only
  split
  · exact hp
  · next w hw =>
    exact getElem?_writeAt_part h.length ((List.take_prefix _ _).trans (h.part w hw)) (.inl hp)

/-- What has been given stays, and what is written is given. -/
theorem given_write (h : Over content f) (hidle : f.inflight = none)
    (hdata : data <+: content.drop pos)
    (hp : f.given[p]? = content[p]? ∨ pos ≤ p ∧ p < pos + data.length) :
    (f.write pos data).given[p]? = content[p]? := by
  rw [AsyncFile.given_write _ _ hidle]
  rw [given_of_idle hidle] at hp
  exact getElem?_writeAt_part h.length hdata hp

theorem given_fail (h : Over content f) (hidle : f.inflight = none)
    (hdata : data <+: content.drop pos) (hp : f.given[p]? = content[p]?) :
    (f.fail pos data n).given[p]? = content[p]? := by
  rw [AsyncFile.given_fail _ _ _ hidle]
  rw [given_of_idle hidle] at hp
  exact getElem?_writeAt_part h.length ((List.take_prefix _ _).trans hdata) (.inl hp)

/-- Beside the piece that is on its way the disk has what has been given. -/
theorem content_of_given (hp : f.given[p]? = content[p]?) (hlt : p < f.content.length)
    (hout : ∀ w, f.inflight = some w → p < w.1 ∨ w.1 + w.2.length ≤ p) :
    f.content[p]? = content[p]? := by
  unfold given at hp
  split at hp
  · exact hp
  · next w hw =>
    rw [← hp]
    exact (getElem?_writeAt_of_outside hlt (hout w hw)).symm

end Over

end AsyncFile

end P2PTransfer
