import Mathlib

/-!
# Leaky buckets

A bucket leaks at a constant rate until it is empty. Everything that is poured in counts, also
what makes it overflow, and what is poured is accepted if the level is then at most the
capacity. In a window of time no more is accepted than the capacity and what leaks in it.

## Main definitions

- `Pour`, `Bucket.pour` — what is poured in, with the two times of it, and what it leaves
- `Bucket.accepted`, `Bucket.acceptedIn` — what is accepted of a list, and how much in a window
- `Timely` — the times of a list do not decrease
- `Bucket.leak` — the time in which a list of pours lets the bucket leak
- `Bucket.Below` — a bucket that will never be fuller than another

## Main results

- `Bucket.level_foldl_le_iff` — a level is kept exactly if every last part of the list keeps it

- `Bucket.acceptedIn_le_of_level` — after a moment no more than the room and what leaks
- `Bucket.acceptedIn_le` — in a window no more than the capacity and what leaks
-/

namespace LeakyBucket

variable {K : Type*} [Field K] [LinearOrder K]

/-- The bucket leaks until `start`, and again from `finish` on. -/
structure Pour (K : Type*) where
  start : K
  finish : K
  amount : K

structure Bucket (K : Type*) where
  level : K
  time : K

/-- The times do not decrease, from a first one on. -/
def Timely : K → List (Pour K) → Prop
  | _, [] => True
  | time, p :: ps => time ≤ p.start ∧ p.start ≤ p.finish ∧ Timely p.finish ps

omit [Field K] in
theorem Timely.sublist {time : K} {ps qs : List (Pour K)} (h : Timely time ps)
    (hsub : qs.Sublist ps) : Timely time qs := by
  have hmono : ∀ {t t' : K} {rs : List (Pour K)}, t ≤ t' → Timely t' rs → Timely t rs := by
    intro t t' rs hle hrs
    cases rs with
    | nil => trivial
    | cons r rs => exact ⟨hle.trans hrs.1, hrs.2⟩
  induction hsub generalizing time with
  | slnil => trivial
  | cons p _ ih => exact ih (hmono (h.1.trans h.2.1) h.2.2)
  | cons_cons p _ ih => exact ⟨h.1, h.2.1, ih h.2.2⟩

namespace Pour

/-- Some moment of it is in the window. -/
def Meets (p : Pour K) (first length : K) : Prop := first ≤ p.finish ∧ p.start ≤ first + length

instance (p : Pour K) (first length : K) : Decidable (p.Meets first length) :=
  inferInstanceAs (Decidable (_ ∧ _))

end Pour

namespace Bucket

def pour (rate : K) (b : Bucket K) (p : Pour K) : Bucket K where
  level := max (b.level - rate * (p.start - b.time)) 0 + p.amount
  time := p.finish

/-- What is accepted of a list, in its order. -/
def accepted (capacity rate : K) : Bucket K → List (Pour K) → List (Pour K)
  | _, [] => []
  | b, p :: ps =>
    if (b.pour rate p).level ≤ capacity then p :: accepted capacity rate (b.pour rate p) ps
    else accepted capacity rate (b.pour rate p) ps

/-- The amounts that are accepted in a window. -/
def acceptedIn (capacity rate first length : K) (b : Bucket K) (ps : List (Pour K)) : K :=
  (((b.accepted capacity rate ps).filter fun p => p.Meets first length).map Pour.amount).sum

variable {capacity rate first length : K} {b : Bucket K} {p : Pour K} {ps : List (Pour K)}

theorem acceptedIn_nil : b.acceptedIn capacity rate first length [] = 0 := rfl

theorem acceptedIn_cons_of_pos (haccept : (b.pour rate p).level ≤ capacity)
    (hmeets : p.Meets first length) :
    b.acceptedIn capacity rate first length (p :: ps) =
      p.amount + (b.pour rate p).acceptedIn capacity rate first length ps := by
  rw [acceptedIn, accepted, if_pos haccept, List.filter_cons_of_pos (by simpa using hmeets),
    List.map_cons, List.sum_cons]
  rfl

theorem acceptedIn_cons_of_neg
    (h : ¬ ((b.pour rate p).level ≤ capacity ∧ p.Meets first length)) :
    b.acceptedIn capacity rate first length (p :: ps) =
      (b.pour rate p).acceptedIn capacity rate first length ps := by
  rw [acceptedIn, accepted]
  split
  · next haccept =>
    have hmeets : ¬ p.Meets first length := by
      intro hm
      exact h ⟨haccept, hm⟩
    rw [List.filter_cons_of_neg (by simpa using hmeets)]
    rfl
  · rfl

variable [IsStrictOrderedRing K]

/-- What is poured is in the bucket, -/
theorem amount_le_level (rate : K) (b : Bucket K) (p : Pour K) :
    p.amount ≤ (b.pour rate p).level := by
  have := le_max_right (b.level - rate * (p.start - b.time)) 0
  simp only [pour]
  linarith

/-- with what was there before and has not leaked. -/
theorem add_le_level (rate : K) (b : Bucket K) (p : Pour K) :
    b.level + p.amount ≤ (b.pour rate p).level + rate * (p.start - b.time) := by
  have := le_max_left (b.level - rate * (p.start - b.time)) 0
  simp only [pour]
  linarith

/-- If something is accepted before the end of a window, then no more than the room in the
bucket and what leaks until the end. -/
theorem acceptedIn_le_of_level (hrate : 0 ≤ rate) (hps : Timely b.time ps)
    (hamount : ∀ p ∈ ps, 0 ≤ p.amount) :
    b.acceptedIn capacity rate first length ps = 0 ∨
      b.acceptedIn capacity rate first length ps ≤
        capacity - b.level + rate * (first + length - b.time) := by
  induction ps generalizing b with
  | nil => exact .inl acceptedIn_nil
  | cons p ps ih =>
    obtain ⟨hstart, hfinish, hrest⟩ := hps
    have hnext := ih (b := b.pour rate p) hrest fun q hq => hamount q (List.mem_cons_of_mem _ hq)
    have hlevel := add_le_level rate b p
    have hpos := hamount p List.mem_cons_self
    have hlost : 0 ≤ rate * (p.finish - p.start) := mul_nonneg hrate (by linarith)
    have htime : (b.pour rate p).time = p.finish := rfl
    rw [htime] at hnext
    by_cases h : (b.pour rate p).level ≤ capacity ∧ p.Meets first length
    · obtain ⟨haccept, hmeets⟩ := h
      have hleft : 0 ≤ rate * (first + length - p.start) :=
        mul_nonneg hrate (by linarith [hmeets.2])
      rw [acceptedIn_cons_of_pos haccept hmeets]
      right
      rcases hnext with hzero | hle
      · rw [hzero]
        linarith
      · linarith
    · rw [acceptedIn_cons_of_neg h]
      rcases hnext with hzero | hle
      · exact .inl hzero
      · right
        linarith

/-- **The rate.** In a window of time no more is accepted than the capacity and what leaks in a
time of its length. -/
theorem acceptedIn_le (hcapacity : 0 ≤ capacity) (hrate : 0 ≤ rate) (hlength : 0 ≤ length)
    (hps : Timely b.time ps) (hamount : ∀ p ∈ ps, 0 ≤ p.amount) :
    b.acceptedIn capacity rate first length ps ≤ capacity + rate * length := by
  have hleak : 0 ≤ rate * length := mul_nonneg hrate hlength
  induction ps generalizing b with
  | nil =>
    rw [acceptedIn_nil]
    linarith
  | cons p ps ih =>
    obtain ⟨-, -, hrest⟩ := hps
    have hothers : ∀ q ∈ ps, 0 ≤ q.amount := fun q hq => hamount q (List.mem_cons_of_mem _ hq)
    by_cases h : (b.pour rate p).level ≤ capacity ∧ p.Meets first length
    · -- the first one that is accepted in the window leaves room for the others
      obtain ⟨haccept, hmeets⟩ := h
      have hin := amount_le_level rate b p
      have hearly : 0 ≤ rate * (p.finish - first) := mul_nonneg hrate (by linarith [hmeets.1])
      have hlater : (b.pour rate p).acceptedIn capacity rate first length ps = 0 ∨
          (b.pour rate p).acceptedIn capacity rate first length ps ≤
            capacity - (b.pour rate p).level + rate * (first + length - p.finish) :=
        acceptedIn_le_of_level hrate hrest hothers
      rw [acceptedIn_cons_of_pos haccept hmeets]
      rcases hlater with hzero | hle
      · rw [hzero]
        linarith
      · linarith
    · rw [acceptedIn_cons_of_neg h]
      exact ih hrest hothers

section Level

/-- From a moment on, the time between the pours. -/
def leak : K → List (Pour K) → K
  | _, [] => 0
  | time, p :: ps => p.start - time + leak p.finish ps

def total (ps : List (Pour K)) : K := (ps.map Pour.amount).sum

omit [LinearOrder K] [IsStrictOrderedRing K] in
theorem total_cons : total (p :: ps) = p.amount + total ps := by
  rw [total, List.map_cons, List.sum_cons, total]

/-- The level is at most a bound exactly if what is poured from any moment on, less what leaks
from there on, is at most that bound. -/
theorem level_foldl_le_iff :
    (ps.foldl (pour rate) b).level ≤ capacity ↔
      b.level + total ps - rate * leak b.time ps ≤ capacity ∧
        ∀ p qs, p :: qs <:+ ps → total (p :: qs) - rate * leak p.finish qs ≤ capacity := by
  induction ps generalizing b with
  | nil =>
    rw [List.foldl_nil, total, List.map_nil, List.sum_nil, leak, mul_zero, sub_zero, add_zero]
    refine ⟨fun h => ⟨h, ?_⟩, And.left⟩
    intro p qs hsuffix
    exact absurd (List.eq_nil_of_suffix_nil hsuffix) (List.cons_ne_nil p qs)
  | cons p ps ih =>
    have hlevel : (b.pour rate p).level =
        max (b.level - rate * (p.start - b.time)) 0 + p.amount := rfl
    have htime : (b.pour rate p).time = p.finish := rfl
    have hmax : ∀ x y : K, max x 0 + y ≤ capacity ↔ x + y ≤ capacity ∧ y ≤ capacity := by
      intro x y
      rw [← max_add_add_right, zero_add, max_le_iff]
    have hsplit : (b.pour rate p).level + total ps - rate * leak p.finish ps =
        max (b.level - rate * (p.start - b.time)) 0 +
          (total (p :: ps) - rate * leak p.finish ps) := by
      rw [hlevel, total_cons]
      ring
    have hall : b.level - rate * (p.start - b.time) +
        (total (p :: ps) - rate * leak p.finish ps) =
          b.level + total (p :: ps) - rate * leak b.time (p :: ps) := by
      rw [leak]
      ring
    rw [List.foldl_cons, ih, htime, hsplit, hmax, hall, and_assoc]
    apply and_congr_right
    intro _
    constructor
    · rintro ⟨hwhole, hrest⟩ q qs hsuffix
      rcases List.suffix_cons_iff.mp hsuffix with heq | hsuffix
      · obtain ⟨rfl, rfl⟩ := List.cons.inj heq
        exact hwhole
      · exact hrest q qs hsuffix
    · intro h
      exact ⟨h p ps List.suffix_rfl, fun q qs hsuffix =>
        h q qs (hsuffix.trans (List.suffix_cons p ps))⟩

/-- An empty bucket leaks nothing before the first pour. -/
theorem level_foldl_le_iff_of_empty (hb : b.level = 0) (hcapacity : 0 ≤ capacity)
    (hrate : 0 ≤ rate) (hps : Timely b.time ps) :
    (ps.foldl (pour rate) b).level ≤ capacity ↔
      ∀ p qs, p :: qs <:+ ps → total (p :: qs) - rate * leak p.finish qs ≤ capacity := by
  rw [level_foldl_le_iff, hb, zero_add]
  refine ⟨And.right, fun h => ⟨?_, h⟩⟩
  cases ps with
  | nil =>
    rw [total, List.map_nil, List.sum_nil, leak, mul_zero, sub_zero]
    exact hcapacity
  | cons p ps =>
    have hwhole := h p ps List.suffix_rfl
    have hstart : 0 ≤ rate * (p.start - b.time) :=
      mul_nonneg hrate (sub_nonneg.mpr hps.1)
    rw [leak, mul_add]
    linarith

end Level

section Below

/-- When the first has leaked as long, it holds no more than the second. -/
structure Below (rate : K) (b b' : Bucket K) : Prop where
  nonneg : 0 ≤ b.level
  nonneg' : 0 ≤ b'.level
  time_le : b.time ≤ b'.time
  level_le : b.level - rate * (b'.time - b.time) ≤ b'.level

variable {b' : Bucket K}

omit [IsStrictOrderedRing K] in
theorem Below.refl (hb : 0 ≤ b.level) : Below rate b b where
  nonneg := hb
  nonneg' := hb
  time_le := le_rfl
  level_le := by rw [sub_self, mul_zero, sub_zero]

/-- What is poured into both comes higher in the second. -/
theorem Below.level_pour_le (h : Below rate b b') :
    (b.pour rate p).level ≤ (b'.pour rate p).level := by
  have hle : b.level - rate * (p.start - b.time) ≤ b'.level - rate * (p.start - b'.time) := by
    have := h.level_le
    linarith
  exact add_le_add (max_le_max hle le_rfl) le_rfl

theorem level_pour_nonneg (hp : 0 ≤ p.amount) : 0 ≤ (b.pour rate p).level :=
  hp.trans (amount_le_level rate b p)

theorem Below.pour (h : Below rate b b') (hp : 0 ≤ p.amount) :
    Below rate (b.pour rate p) (b'.pour rate p) where
  nonneg := level_pour_nonneg hp
  nonneg' := level_pour_nonneg hp
  time_le := le_rfl
  level_le := by
    have htime : (b'.pour rate p).time = (b.pour rate p).time := rfl
    rw [htime, sub_self, mul_zero, sub_zero]
    exact h.level_pour_le

/-- The first stays below without it. -/
theorem Below.skip (hrate : 0 ≤ rate) (h : Below rate b b') (hp : 0 ≤ p.amount)
    (hstart : b'.time ≤ p.start) (hfinish : p.start ≤ p.finish) :
    Below rate b (b'.pour rate p) where
  nonneg := h.nonneg
  nonneg' := level_pour_nonneg hp
  time_le := h.time_le.trans (hstart.trans hfinish)
  level_le := by
    have htime : (b'.pour rate p).time = p.finish := rfl
    have hlevel := add_le_level rate b' p
    have hlost : 0 ≤ rate * (p.finish - p.start) := mul_nonneg hrate (by linarith)
    have := h.level_le
    rw [htime]
    linarith

end Below

end Bucket

end LeakyBucket
