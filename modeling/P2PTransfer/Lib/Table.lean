import Mathlib

/-!
# Tables with a primary key

A table is a list of rows no two of which have the same key. Seen from outside it is a
partial map from keys to rows, and each statement on the table is described by what it
does to that map.

## Main definitions

- `Table` — the rows and the uniqueness of their keys
- `Table.find` — the row of a key
- `Table.insert`, `Table.update`, `Table.upsert`, `Table.delete` — the statements
-/

namespace Storage

variable {ρ κ : Type*}

/-- Rows with distinct keys, in the order of their insertion. -/
structure Table (key : ρ → κ) where
  rows : List ρ
  nodup : (rows.map key).Nodup

namespace Table

variable {key : ρ → κ} [DecidableEq κ]

def empty (key : ρ → κ) : Table key := ⟨[], List.nodup_nil⟩

def find (t : Table key) (k : κ) : Option ρ := t.rows.find? fun r => decide (key r = k)

@[simp] theorem find_empty (k : κ) : (empty key).find k = none := rfl

theorem find_eq_none {t : Table key} {k : κ} : t.find k = none ↔ k ∉ t.rows.map key := by
  simp [find, List.find?_eq_none]

theorem key_of_find {t : Table key} {k : κ} {r : ρ} (h : t.find k = some r) : key r = k := by
  simpa using List.find?_some h

/-- `INSERT`, which fails on a key that the table has. -/
def insert (t : Table key) (r : ρ) : Option (Table key) :=
  if h : key r ∈ t.rows.map key then none
  else some ⟨t.rows ++ [r], by
    rw [List.map_append, List.nodup_append]
    refine ⟨t.nodup, List.nodup_singleton _, fun a ha b hb => ?_⟩
    rw [List.map_singleton, List.mem_singleton] at hb
    exact fun he => h (hb ▸ he ▸ ha)⟩

/-- `UPDATE` of the row with a key; of no row, if there is none. -/
def update (t : Table key) (k : κ) (f : ρ → ρ) (hf : ∀ r, key (f r) = key r) : Table key where
  rows := t.rows.map fun r => if key r = k then f r else r
  nodup := by
    have hkeys : (t.rows.map fun r => if key r = k then f r else r).map key = t.rows.map key := by
      rw [List.map_map]
      apply List.map_congr_left
      intro r _
      simp only [Function.comp]
      split
      · exact hf r
      · rfl
    rw [hkeys]
    exact t.nodup

/-- `DELETE` of the row with a key. -/
def delete (t : Table key) (k : κ) : Table key where
  rows := t.rows.filter fun r => decide (key r ≠ k)
  nodup := t.nodup.sublist (List.filter_sublist.map key)

/-- `DELETE` of the rows with a property. -/
def deleteWhere (t : Table key) (p : ρ → Bool) : Table key where
  rows := t.rows.filter fun r => !p r
  nodup := t.nodup.sublist (List.filter_sublist.map key)

/-- `INSERT … ON CONFLICT DO UPDATE` of all other columns. -/
def upsert (t : Table key) (r : ρ) : Table key where
  rows := if key r ∈ t.rows.map key then t.rows.map fun a => if key a = key r then r else a
    else t.rows ++ [r]
  nodup := by
    split
    · have hkeys : (t.rows.map fun a => if key a = key r then r else a).map key =
          t.rows.map key := by
        rw [List.map_map]
        apply List.map_congr_left
        intro a _
        simp only [Function.comp]
        split
        · next h => exact h.symm
        · rfl
      rw [hkeys]
      exact t.nodup
    · next h =>
      rw [List.map_append, List.nodup_append]
      refine ⟨t.nodup, List.nodup_singleton _, fun a ha b hb => ?_⟩
      rw [List.map_singleton, List.mem_singleton] at hb
      exact fun he => h (hb ▸ he ▸ ha)

theorem find_insert_self {t u : Table key} {r : ρ} (h : t.insert r = some u) :
    u.find (key r) = some r := by
  unfold insert at h
  split at h
  · cases h
  · next hfresh =>
    obtain rfl := Option.some.inj h
    have hold : t.rows.find? (fun a => decide (key a = key r)) = none := find_eq_none.mpr hfresh
    simp [find, List.find?_append, hold]

theorem find_insert_of_ne {t u : Table key} {r : ρ} {k : κ} (h : t.insert r = some u)
    (hk : k ≠ key r) : u.find k = t.find k := by
  unfold insert at h
  split at h
  · cases h
  · obtain rfl := Option.some.inj h
    have hnew : [r].find? (fun a => decide (key a = k)) = none := by
      simp [Ne.symm hk]
    simp [find, List.find?_append, hnew]

/-- An inserted row had no predecessor. -/
theorem find_of_insert {t u : Table key} {r : ρ} (h : t.insert r = some u) :
    t.find (key r) = none := by
  unfold insert at h
  split at h
  · cases h
  · next hfresh => exact find_eq_none.mpr hfresh

section Update

variable {t : Table key} {k k' : κ} {f : ρ → ρ} {hf : ∀ r, key (f r) = key r}

theorem find_update (k' : κ) :
    (t.update k f hf).find k' = (t.find k').map fun r => if key r = k then f r else r := by
  have hkeys : ((fun a => decide (key a = k')) ∘ fun r => if key r = k then f r else r) =
      fun r => decide (key r = k') := by
    funext r
    simp only [Function.comp]
    split
    · rw [hf r]
    · rfl
  simp only [find, update, List.find?_map, hkeys]

theorem find_update_self : (t.update k f hf).find k = (t.find k).map f := by
  rw [find_update]
  cases h : t.find k with
  | none => rfl
  | some r => rw [Option.map_some, Option.map_some, if_pos (key_of_find h)]

theorem find_update_of_ne (hk : k' ≠ k) : (t.update k f hf).find k' = t.find k' := by
  rw [find_update]
  cases h : t.find k' with
  | none => rfl
  | some r => rw [Option.map_some, if_neg (key_of_find h ▸ hk)]

end Update

section Find

variable {t : Table key} {k k' : κ} {r : ρ}

/-- The rows are those that their keys find. -/
theorem mem_rows_iff : r ∈ t.rows ↔ t.find (key r) = some r := by
  constructor
  · intro hr
    cases hfind : t.find (key r) with
    | none => exact absurd (List.mem_map_of_mem hr) (find_eq_none.mp hfind)
    | some r' =>
      have hr' : r' ∈ t.rows := List.mem_of_find?_eq_some hfind
      rw [List.inj_on_of_nodup_map t.nodup hr' hr (key_of_find hfind)]
  · exact fun h => List.mem_of_find?_eq_some h

theorem find_delete (k' : κ) : (t.delete k).find k' = if k' = k then none else t.find k' := by
  rw [find, delete, List.find?_filter]
  split
  · next h =>
    rw [List.find?_eq_none]
    intro r _
    simp [h]
  · next h =>
    apply List.find?_congr
    intro r _
    by_cases hk : key r = k'
    · simp [hk, h]
    · simp [hk]

/-- A row that is not deleted is still found. -/
theorem find_deleteWhere (p : ρ → Bool) :
    (t.deleteWhere p).find k = (t.find k).filter fun r => !p r := by
  cases hfind : t.find k with
  | none =>
    rw [Option.filter_none, find_eq_none]
    have hold := find_eq_none.mp hfind
    intro hmem
    exact hold ((List.filter_sublist.map key).subset hmem)
  | some r =>
    have hrow : r ∈ t.rows := List.mem_of_find?_eq_some hfind
    have hkey : key r = k := key_of_find hfind
    cases hp : p r with
    | false =>
      have hkeep : r ∈ (t.deleteWhere p).rows := List.mem_filter.mpr ⟨hrow, by rw [hp]; rfl⟩
      rw [← hkey, mem_rows_iff.mp hkeep, Option.filter_some, hp]
      rfl
    | true =>
      have hnone : (t.deleteWhere p).find k = none := by
        apply find_eq_none.mpr
        intro hmem
        obtain ⟨r', hr', hkey'⟩ := List.mem_map.mp hmem
        obtain ⟨hrow', hp'⟩ := List.mem_filter.mp hr'
        rw [List.inj_on_of_nodup_map t.nodup hrow' hrow (hkey'.trans hkey.symm), hp] at hp'
        exact Bool.false_ne_true hp'
      rw [hnone, Option.filter_some, hp]
      rfl

theorem find_upsert (r : ρ) (k : κ) :
    (t.upsert r).find k = if key r = k then some r else t.find k := by
  by_cases hmem : key r ∈ t.rows.map key
  · simp only [find, upsert, if_pos hmem, List.find?_map]
    have hkeys : ((fun a => decide (key a = k)) ∘ fun a => if key a = key r then r else a) =
        fun a => decide (key a = k) := by
      funext a
      simp only [Function.comp]
      split
      · next h => rw [h]
      · rfl
    rw [hkeys]
    cases hfind : t.rows.find? fun a => decide (key a = k) with
    | none =>
      rw [Option.map_none, if_neg]
      rintro rfl
      exact find_eq_none.mp hfind hmem
    | some a =>
      have ha : key a = k := key_of_find (t := t) hfind
      rw [Option.map_some, ha]
      by_cases hk : key r = k
      · rw [if_pos hk.symm, if_pos hk]
      · rw [if_neg fun h => hk h.symm, if_neg hk]
  · simp only [find, upsert, if_neg hmem, List.find?_append]
    by_cases hk : key r = k
    · have hnone : t.rows.find? (fun a => decide (key a = k)) = none := find_eq_none.mpr (hk ▸ hmem)
      simp [hk, hnone]
    · simp [hk]

end Find

section Index

variable {k : κ} {rows : List ρ}

/-- The row at the index of a key is the one with the key. -/
theorem modify_of_findIdx? (hnodup : (rows.map key).Nodup) {i : Nat}
    (h : rows.findIdx? (fun r => decide (key r = k)) = some i) (f : ρ → ρ) :
    rows.modify i f = rows.map fun r => if key r = k then f r else r := by
  induction rows generalizing i with
  | nil => cases h
  | cons a rows ih =>
    rw [List.map_cons, List.nodup_cons] at hnodup
    rw [List.findIdx?_cons] at h
    by_cases ha : key a = k
    · rw [decide_eq_true ha, if_pos rfl] at h
      obtain rfl := Option.some.inj h
      have hrest : (rows.map fun r => if key r = k then f r else r) = rows := by
        conv_rhs => rw [← List.map_id rows]
        apply List.map_congr_left
        intro r hr
        have hne : key r ≠ k := fun hk => hnodup.1 (ha ▸ hk ▸ List.mem_map_of_mem hr)
        rw [if_neg hne, id]
      rw [List.modify_zero_cons, List.map_cons, if_pos ha, hrest]
    · rw [decide_eq_false ha, if_neg Bool.false_ne_true] at h
      obtain ⟨j, hj, rfl⟩ := Option.map_eq_some_iff.mp h
      rw [List.modify_succ_cons, List.map_cons, if_neg ha, ih hnodup.2 hj]

theorem findIdx?_eq_none {rows : List ρ} :
    rows.findIdx? (fun r => decide (key r = k)) = none ↔ k ∉ rows.map key := by
  simp [List.findIdx?_eq_none_iff]

/-- `update` by the index of the row. -/
theorem rows_update {t : Table key} {f : ρ → ρ} {hf : ∀ r, key (f r) = key r} :
    (t.update k f hf).rows =
      match t.rows.findIdx? (fun r => decide (key r = k)) with
      | some i => t.rows.modify i f
      | none => t.rows := by
  split
  · next i hi => exact (modify_of_findIdx? t.nodup hi f).symm
  · next hnone =>
    have hfresh := findIdx?_eq_none.mp hnone
    show (t.rows.map fun r => if key r = k then f r else r) = t.rows
    conv_rhs => rw [← List.map_id t.rows]
    apply List.map_congr_left
    intro r hr
    have hne : key r ≠ k := fun hk => hfresh (hk ▸ List.mem_map_of_mem hr)
    rw [if_neg hne, id]

/-- `upsert` by the index of the row. -/
theorem rows_upsert {t : Table key} {r : ρ} :
    (t.upsert r).rows =
      match t.rows.findIdx? (fun a => decide (key a = key r)) with
      | some i => t.rows.set i r
      | none => t.rows ++ [r] := by
  split
  · next i hi =>
    have hmem : key r ∈ t.rows.map key := by
      by_contra hnot
      rw [findIdx?_eq_none.mpr hnot] at hi
      cases hi
    rw [List.set_eq_modify, modify_of_findIdx? t.nodup hi]
    exact if_pos hmem
  · next hnone => exact if_neg (findIdx?_eq_none.mp hnone)

end Index

/-- After an `upsert` the row is in the table. -/
theorem mem_upsert (t : Table key) (r : ρ) : r ∈ (t.upsert r).rows := by
  simp only [upsert]
  split
  · next h =>
    obtain ⟨a, ha, hkey⟩ := List.mem_map.mp h
    exact List.mem_map.mpr ⟨a, ha, if_pos hkey⟩
  · exact List.mem_append_right _ (List.mem_singleton_self r)

end Table

end Storage
