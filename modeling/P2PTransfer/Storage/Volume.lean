import P2PTransfer.Storage.Bytes
import P2PTransfer.Storage.Path

/-!
# A volume with open files

A program that has opened a file goes on with it by its number, whatever becomes of the name.
`File::create` takes the file that is under the name and cuts it, or makes a new one; a file is
removed by taking its name away.

## Main definitions

- `Volume` — the names and the files
- `Volume.create`, `Volume.write`, `Volume.remove` — what is done to them
-/

namespace P2PTransfer

/-- No file has two names, and a new file gets a number that no name leads to. -/
structure Volume where
  names : Path → Option Nat
  contents : Nat → Bytes
  next : Nat
  below : ∀ p i, names p = some i → i < next
  single : ∀ p q i, names p = some i → names q = some i → p = q

namespace Volume

variable {v : Volume} {p q : Path} {i j : Nat}

/-- The file that `File::create` opens. -/
def place (v : Volume) (p : Path) : Nat := (v.names p).getD v.next

theorem eq_of_names_eq_place (h : v.names q = some (v.place p)) : q = p := by
  cases hp : v.names p with
  | some i =>
    have hplace : v.place p = i := by simp [place, hp]
    exact v.single q p i (hplace ▸ h) hp
  | none =>
    have hplace : v.place p = v.next := by simp [place, hp]
    exact absurd (v.below q _ (hplace ▸ h)) (Nat.lt_irrefl _)

def create (v : Volume) (p : Path) : Volume where
  names := Function.update v.names p (some (v.place p))
  contents := Function.update v.contents (v.place p) []
  next := v.next + 1
  below q i h := by
    by_cases hq : q = p
    · subst hq
      rw [Function.update_self] at h
      obtain rfl := Option.some.inj h
      unfold place
      cases hn : v.names q with
      | none => exact Nat.lt_succ_self _
      | some j => exact Nat.lt_succ_of_lt (v.below q j hn)
    · rw [Function.update_of_ne hq] at h
      exact Nat.lt_succ_of_lt (v.below q i h)
  single q r i hq hr := by
    by_cases hqp : q = p
    · by_cases hrp : r = p
      · rw [hqp, hrp]
      · rw [hqp, Function.update_self] at hq
        rw [Function.update_of_ne hrp] at hr
        rw [hqp]
        exact (eq_of_names_eq_place (hr.trans hq.symm)).symm
    · rw [Function.update_of_ne hqp] at hq
      by_cases hrp : r = p
      · rw [hrp, Function.update_self] at hr
        rw [hrp]
        exact eq_of_names_eq_place (hq.trans hr.symm)
      · rw [Function.update_of_ne hrp] at hr
        exact v.single q r i hq hr

/-- A write through an open file, at a position of its own. -/
def write (v : Volume) (i pos : Nat) (data : Bytes) : Volume :=
  { v with contents := Function.update v.contents i (writeAt (v.contents i) pos data) }

def remove (v : Volume) (p : Path) : Volume where
  names := Function.update v.names p none
  contents := v.contents
  next := v.next
  below q i h := by
    by_cases hq : q = p
    · rw [hq, Function.update_self] at h
      cases h
    · rw [Function.update_of_ne hq] at h
      exact v.below q i h
  single q r i hq hr := by
    by_cases hqp : q = p
    · rw [hqp, Function.update_self] at hq
      cases hq
    · by_cases hrp : r = p
      · rw [hrp, Function.update_self] at hr
        cases hr
      · rw [Function.update_of_ne hqp] at hq
        rw [Function.update_of_ne hrp] at hr
        exact v.single q r i hq hr

@[simp] theorem names_create_self : (v.create p).names p = some (v.place p) :=
  Function.update_self ..

theorem names_create_of_ne (h : q ≠ p) : (v.create p).names q = v.names q :=
  Function.update_of_ne h ..

@[simp] theorem contents_create_place : (v.create p).contents (v.place p) = [] :=
  Function.update_self ..

/-- The file of another name keeps its content. -/
theorem contents_create_of_ne (hq : v.names q = some i) (h : q ≠ p) :
    (v.create p).contents i = v.contents i :=
  Function.update_of_ne (fun heq => h (eq_of_names_eq_place (heq ▸ hq))) ..

@[simp] theorem names_write (pos : Nat) (data : Bytes) : (v.write i pos data).names = v.names := rfl

@[simp] theorem contents_write_self (pos : Nat) (data : Bytes) :
    (v.write i pos data).contents i = writeAt (v.contents i) pos data := Function.update_self ..

theorem contents_write_of_ne (pos : Nat) (data : Bytes) (h : j ≠ i) :
    (v.write i pos data).contents j = v.contents j := Function.update_of_ne h ..

@[simp] theorem names_remove_self : (v.remove p).names p = none := Function.update_self ..

theorem names_remove_of_ne (h : q ≠ p) : (v.remove p).names q = v.names q :=
  Function.update_of_ne h ..

@[simp] theorem contents_remove : (v.remove p).contents = v.contents := rfl

end Volume

end P2PTransfer
