import Mathlib

/-!
# Arithmetic on 64-bit integers

An operation whose result does not fit panics in a build with overflow checks, and wraps in
one without. Without an overflow both give the result.

## Main definitions

- `mulU64`, `addU64`, `subU64`, `divU64` — the operations on unsigned numbers
- `mulI64`, `subI64` — the product and the difference of two signed numbers
-/

namespace Machine64

/-- The result of an operation that is `n` without an overflow. -/
def narrow (checks : Bool) (n : ℕ) : Option ℕ :=
  if n < 2 ^ 64 then some n else if checks then none else some (n % 2 ^ 64)

theorem narrow_of_lt {checks : Bool} {n : ℕ} (h : n < 2 ^ 64) : narrow checks n = some n :=
  if_pos h

def mulU64 (checks : Bool) (a b : ℕ) : Option ℕ := narrow checks (a * b)

theorem mulU64_of_lt {checks : Bool} {a b : ℕ} (h : a * b < 2 ^ 64) :
    mulU64 checks a b = some (a * b) := narrow_of_lt h

def addU64 (checks : Bool) (a b : ℕ) : Option ℕ := narrow checks (a + b)

def subU64 (checks : Bool) (a b : ℕ) : Option ℕ :=
  if b ≤ a then some (a - b) else if checks then none else some (a + 2 ^ 64 - b)

/-- A division by zero panics in every build. -/
def divU64 (a b : ℕ) : Option ℕ := if b = 0 then none else some (a / b)

/-- The signed result of an operation that is `n` without an overflow. -/
def narrowI64 (checks : Bool) (n : ℤ) : Option ℤ :=
  if -2 ^ 63 ≤ n ∧ n < 2 ^ 63 then some n else if checks then none else some (n.bmod (2 ^ 64))

def mulI64 (checks : Bool) (a b : ℤ) : Option ℤ := narrowI64 checks (a * b)

def subI64 (checks : Bool) (a b : ℤ) : Option ℤ := narrowI64 checks (a - b)

/-- With overflow checks there is a result exactly without an overflow. -/
theorem narrow_isSome {n : ℕ} : (narrow true n).isSome ↔ n < 2 ^ 64 := by
  unfold narrow
  split <;> simp_all

theorem narrowI64_isSome {n : ℤ} : (narrowI64 true n).isSome ↔ -2 ^ 63 ≤ n ∧ n < 2 ^ 63 := by
  unfold narrowI64
  split
  · simp_all
  · simp_all

/-- What there is of a result is the result modulo 2 to the 64. -/
theorem narrow_eq_some {checks : Bool} {n m : ℕ} (h : narrow checks n = some m) :
    m % 2 ^ 64 = n % 2 ^ 64 := by
  unfold narrow at h
  split at h
  · rw [Option.some.inj h]
  · split at h
    · cases h
    · rw [← Option.some.inj h, Nat.mod_mod]

theorem narrowI64_eq_some {checks : Bool} {n m : ℤ} (h : narrowI64 checks n = some m) :
    m = n.bmod (2 ^ 64) := by
  unfold narrowI64 at h
  split at h
  · next hrange =>
    rw [← Option.some.inj h]
    exact (Int.bmod_eq_of_le (by omega) (by omega)).symm
  · split at h
    · cases h
    · exact (Option.some.inj h).symm

/-- Numbers with one remainder have one signed remainder. -/
theorem bmod_of_mod {b c m : ℕ} (h : b % m = c % m) : Int.bmod b m = Int.bmod c m := by
  have hcast : (b : ℤ) % m = (c : ℤ) % m := by exact_mod_cast h
  rw [← Int.emod_bmod, hcast, Int.emod_bmod]

theorem bmod_sub_of_bmod (a b : ℤ) (m : ℕ) :
    Int.bmod (Int.bmod a m - Int.bmod b m) m = Int.bmod (a - b) m := by
  rw [Int.bmod_sub_bmod, Int.sub_bmod_bmod]

/-- Without overflow checks there is a result always. -/
theorem narrow_unchecked (n : ℕ) : (narrow false n).isSome := by
  unfold narrow
  split <;> rfl

theorem narrowI64_unchecked (n : ℤ) : (narrowI64 false n).isSome := by
  unfold narrowI64
  split <;> rfl

end Machine64
