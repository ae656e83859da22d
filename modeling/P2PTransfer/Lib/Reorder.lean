import Mathlib

/-!
# Reorder buffers

Numbered items come in by any order and go out by their numbers: a buffer keeps the items
that came early, and releases them when their turn has come. What is in a list of numbered
items is counted, so that a pipeline of such lists keeps account of every number.

## Main definitions

- `tally` — how often a number occurs in a list of items
- `Reorder` — the next number due and the items that wait
- `Reorder.release` — all the items whose turn has come
-/

namespace Transition

variable {α β : Type*}

/-- How often the number `j` occurs. -/
def tally (number : β → Nat) (l : List β) (j : Nat) : Nat := l.countP fun b => number b = j

section Tally

variable (number : β → Nat) (j : Nat)

@[simp] theorem tally_nil : tally number [] j = 0 := rfl

@[simp] theorem tally_cons (b : β) (l : List β) :
    tally number (b :: l) j = tally number l j + if number b = j then 1 else 0 := by
  simp [tally, List.countP_cons]

@[simp] theorem tally_append (l l' : List β) :
    tally number (l ++ l') j = tally number l j + tally number l' j := by
  simp [tally]

/-- Taking an item out of a list. -/
theorem tally_erase [BEq β] [LawfulBEq β] {b : β} {l : List β} (h : b ∈ l) :
    tally number l j = tally number (l.erase b) j + if number b = j then 1 else 0 := by
  have hp := (List.perm_cons_erase h).countP_eq fun b => decide (number b = j)
  rw [tally, hp, ← tally, tally_cons]

variable {number j} in
theorem tally_pos {l : List β} : 0 < tally number l j ↔ ∃ b ∈ l, number b = j := by
  simp [tally, List.countP_pos_iff]

theorem count_map_number (l : List β) : (l.map number).count j = tally number l j := by
  rw [List.count, List.countP_map]
  exact List.countP_congr fun b _ => by simp

/-- A list that holds each number of a range once is as long as the range. -/
theorem length_of_tally {number : β → Nat} {l : List β} {k n : Nat}
    (h : ∀ j, tally number l j = if k ≤ j ∧ j < k + n then 1 else 0) : l.length = n := by
  have hperm : (l.map number).Perm (List.range' k n) := by
    rw [List.perm_iff_count]
    intro j
    rw [count_map_number, h]
    split
    · next hj => exact (List.count_eq_one_of_mem List.nodup_range' (List.mem_range'_1.mpr hj)).symm
    · next hj => exact (List.count_eq_zero.mpr fun hm => hj (List.mem_range'_1.mp hm)).symm
  rw [← List.length_map number, hperm.length_eq, List.length_range']

/-- A list that holds a number of a range at most once is at most as long as the range. -/
theorem length_le_of_tally {number : β → Nat} {l : List β} {k n : Nat}
    (h : ∀ j, tally number l j ≤ if k ≤ j ∧ j < k + n then 1 else 0) : l.length ≤ n := by
  have hnodup : (l.map number).Nodup := by
    rw [List.nodup_iff_count_le_one]
    intro j
    rw [count_map_number]
    have := h j
    split at this <;> omega
  have hsub : l.map number ⊆ List.range' k n := by
    intro j hj
    have hpos := List.count_pos_iff.mpr hj
    rw [count_map_number] at hpos
    have := h j
    split at this
    · next hin => exact List.mem_range'_1.mpr hin
    · omega
  have hle := (List.subperm_of_subset hnodup hsub).length_le
  rwa [List.length_map, List.length_range'] at hle

end Tally

structure Reorder (α : Type*) where
  next : Nat := 0
  waiting : List (Nat × α) := []

namespace Reorder

variable (r : Reorder α)

/-- An item that comes in takes the place of an earlier one with its number. -/
def insert (i : Nat) (a : α) : Reorder α :=
  { r with waiting := (i, a) :: r.waiting.filter fun x => x.1 ≠ i }

/-- The item whose turn it is, if it is there. -/
def ready : Option α := (r.waiting.find? fun x => x.1 = r.next).map Prod.snd

def advance : Reorder α := ⟨r.next + 1, r.waiting.filter fun x => x.1 ≠ r.next⟩

/-- Up to `n` items go out. -/
def drain : Nat → Reorder α → List α × Reorder α
  | 0, r => ([], r)
  | n + 1, r => match r.ready with
    | none => ([], r)
    | some a => (a :: (drain n r.advance).1, (drain n r.advance).2)

def release : List α × Reorder α := drain r.waiting.length r

/-- Every item that waits is the one that `f` gives to its number. -/
def Holds (f : Nat → α) (r : Reorder α) : Prop := ∀ x ∈ r.waiting, x.2 = f x.1

theorem tally_filter (i j : Nat) :
    tally Prod.fst (r.waiting.filter fun x => x.1 ≠ i) j =
      if j = i then 0 else tally Prod.fst r.waiting j := by
  unfold tally
  rw [List.countP_filter]
  split
  · next h =>
    rw [List.countP_eq_zero]
    simp [h]
  · next h =>
    apply List.countP_congr
    intro x _
    simp only [Bool.and_eq_true, decide_eq_true_eq, ne_eq, and_iff_left_iff_imp]
    rintro rfl
    exact h

theorem tally_insert (i j : Nat) (a : α) :
    tally Prod.fst (r.insert i a).waiting j =
      if j = i then 1 else tally Prod.fst r.waiting j := by
  rw [insert, tally_cons, tally_filter]
  split <;> simp_all [eq_comm]

theorem tally_advance (j : Nat) :
    tally Prod.fst r.advance.waiting j =
      if j = r.next then 0 else tally Prod.fst r.waiting j :=
  r.tally_filter r.next j

theorem ready_eq_none : r.ready = none ↔ tally Prod.fst r.waiting r.next = 0 := by
  rw [ready, Option.map_eq_none_iff, List.find?_eq_none, tally, List.countP_eq_zero]

theorem length_advance_lt {a : α} (h : r.ready = some a) :
    r.advance.waiting.length < r.waiting.length := by
  obtain ⟨x, hx, -⟩ := Option.map_eq_some_iff.mp h
  rw [advance, List.length_filter_lt_length_iff_exists]
  exact ⟨x, List.mem_of_find?_eq_some hx, by simpa using List.find?_some hx⟩

theorem length_insert_le (i : Nat) (a : α) :
    (r.insert i a).waiting.length ≤ r.waiting.length + 1 :=
  Nat.succ_le_succ (List.length_filter_le _ _)

variable {r} {f : Nat → α}

theorem Holds.ready (h : r.Holds f) {a : α} (ha : r.ready = some a) : a = f r.next := by
  obtain ⟨x, hx, rfl⟩ := Option.map_eq_some_iff.mp ha
  have hn : x.1 = r.next := by simpa using List.find?_some hx
  rw [h x (List.mem_of_find?_eq_some hx), hn]

theorem Holds.insert (h : r.Holds f) {i : Nat} {a : α} (ha : a = f i) : (r.insert i a).Holds f := by
  intro x hx
  rcases List.mem_cons.mp hx with rfl | hx
  · exact ha
  · exact h x (List.mem_of_mem_filter hx)

theorem Holds.advance (h : r.Holds f) : r.advance.Holds f :=
  fun x hx => h x (List.mem_of_mem_filter hx)

/-- What goes out are the items of consecutive numbers, from the next one due. -/
theorem drain_spec (n : Nat) (h : r.Holds f) :
    ∃ k, (drain n r).1 = (List.range' r.next k).map f ∧ (drain n r).2.next = r.next + k ∧
      (drain n r).2.Holds f ∧
      (∀ j, tally Prod.fst (drain n r).2.waiting j =
        if r.next ≤ j ∧ j < r.next + k then 0 else tally Prod.fst r.waiting j) ∧
      ∀ j, r.next ≤ j → j < r.next + k → 0 < tally Prod.fst r.waiting j := by
  induction n generalizing r with
  | zero => exact ⟨0, by simp [drain], rfl, h, by simp [drain], by omega⟩
  | succ n ih =>
    cases hr : r.ready with
    | none =>
      simp only [drain, hr]
      exact ⟨0, rfl, rfl, h, by simp, by omega⟩
    | some a =>
      obtain ⟨k, hout, hnext, hholds, htally, hpos⟩ := ih h.advance
      simp only [drain, hr]
      have hstep : r.advance.next = r.next + 1 := rfl
      rw [hstep] at hout hnext htally hpos
      refine ⟨k + 1, ?_, by omega, hholds, fun j => ?_, fun j hj hj' => ?_⟩
      · rw [hout, List.range'_succ, List.map_cons, h.ready hr]
      · rw [htally, tally_advance]
        by_cases hj : j = r.next
        · simp [hj]
        · simp only [hj, if_false]
          congr 1
          simp only [eq_iff_iff]
          omega
      · rcases Nat.eq_or_lt_of_le hj with rfl | hlt
        · have : r.ready ≠ none := by simp [hr]
          rw [Ne, ready_eq_none] at this
          omega
        · have := hpos j (by omega) (by omega)
          rw [tally_advance, if_neg (by omega)] at this
          exact this

theorem mem_of_mem_drain {n : Nat} {x : Nat × α} (h : x ∈ (drain n r).2.waiting) :
    x ∈ r.waiting := by
  induction n generalizing r with
  | zero => exact h
  | succ n ih =>
    cases hr : r.ready with
    | none => simpa only [drain, hr] using h
    | some a =>
      simp only [drain, hr] at h
      exact List.mem_of_mem_filter (ih h)

theorem next_le_drain (n : Nat) (r : Reorder α) : r.next ≤ (drain n r).2.next := by
  induction n generalizing r with
  | zero => exact Nat.le_refl _
  | succ n ih =>
    cases hr : r.ready with
    | none => simp only [drain, hr, Nat.le_refl]
    | some a =>
      simp only [drain, hr]
      exact (Nat.le_succ _).trans (ih r.advance)

/-- Only the numbers of items that wait are passed. -/
theorem of_lt_next_drain {n k : Nat} (h : k < (drain n r).2.next) :
    k < r.next ∨ ∃ x ∈ r.waiting, x.1 = k := by
  induction n generalizing r with
  | zero => exact .inl h
  | succ n ih =>
    cases hr : r.ready with
    | none => exact .inl (by simpa only [drain, hr] using h)
    | some a =>
      simp only [drain, hr] at h
      rcases ih h with hlt | ⟨x, hx, rfl⟩
      · rcases Nat.lt_succ_iff_lt_or_eq.mp hlt with hlt | rfl
        · exact .inl hlt
        · obtain ⟨x, hfind, -⟩ := Option.map_eq_some_iff.mp hr
          exact .inr ⟨x, List.mem_of_find?_eq_some hfind, by simpa using List.find?_some hfind⟩
      · exact .inr ⟨x, List.mem_of_mem_filter hx, rfl⟩

/-- Afterwards no turn has come. -/
theorem ready_drain (n : Nat) (h : r.waiting.length ≤ n) : (drain n r).2.ready = none := by
  induction n generalizing r with
  | zero =>
    have : r.waiting = [] := List.length_eq_zero_iff.mp (by omega)
    simp [drain, Reorder.ready, this]
  | succ n ih =>
    cases hr : r.ready with
    | none => simp [drain, hr]
    | some a =>
      have := r.length_advance_lt hr
      simpa [drain, hr] using ih (r := r.advance) (by omega)

theorem ready_release (r : Reorder α) : r.release.2.ready = none := ready_drain _ (Nat.le_refl _)

end Reorder

end Transition
