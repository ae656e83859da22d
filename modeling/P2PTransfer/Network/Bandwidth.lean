import P2PTransfer.Lib.Bucket

/-!
# The rate limiter

A `RateLimiter` counts the bytes of all requests, the refused ones included, and lets the
count decay with the time. It is a leaky bucket whose capacity is what leaks in a second. The
numbers of the source of type `f64` are exact here, and a moment is a number of seconds.

## Main definitions

- `RateLimiter.allow` — one request, which reads the clock twice
- `RateLimiter.grantedIn` — the bytes that are granted in a window of time

## Main results

- `grantedIn_eq` — the limiter is a leaky bucket
- `grantedIn_le` — it enforces its rate in every window
-/

namespace P2PTransfer.Bandwidth

open LeakyBucket

structure RateLimiter where
  maxBytesPerSecond : Nat
  /-- The count, and the moment up to which it has decayed. -/
  accumulated : ℚ × ℚ

/-- A call of `allow`, which reads the clock in `elapsed` and in `Instant::now`. -/
structure Call where
  elapsedAt : ℚ
  now : ℚ
  bytes : Nat

namespace RateLimiter

def new (maxBytesPerSecond : Nat) (now : ℚ) : RateLimiter where
  maxBytesPerSecond := maxBytesPerSecond
  accumulated := (0, now)

/-- A moment before the last one counts as no time. -/
def allow (l : RateLimiter) (c : Call) : RateLimiter × Bool :=
  let elapsed := max (c.elapsedAt - l.accumulated.2) 0
  let count := max (l.accumulated.1 - l.maxBytesPerSecond * elapsed) 0 + c.bytes
  ({ l with accumulated := (count, c.now) }, decide (count ≤ l.maxBytesPerSecond))

/-- What a sequence of calls returns. -/
def answers : RateLimiter → List Call → List Bool
  | _, [] => []
  | l, c :: cs => (l.allow c).2 :: answers (l.allow c).1 cs

end RateLimiter

namespace Call

def toPour (c : Call) : Pour ℚ := ⟨c.elapsedAt, c.now, c.bytes⟩

/-- Some moment of the call is in the window. -/
def InWindow (c : Call) (first length : ℚ) : Prop := first ≤ c.now ∧ c.elapsedAt ≤ first + length

instance (c : Call) (first length : ℚ) : Decidable (c.InWindow first length) :=
  inferInstanceAs (Decidable (_ ∧ _))

end Call

/-- The calls are made one after the other, from a moment on. -/
def InOrder (start : ℚ) (cs : List Call) : Prop := Timely start (cs.map Call.toPour)

/-- The bytes of the calls in a window that return true. -/
def RateLimiter.grantedIn (l : RateLimiter) (first length : ℚ) (cs : List Call) : Nat :=
  (((cs.zip (l.answers cs)).filter fun x => x.2 && decide (x.1.InWindow first length)).map
    fun x => x.1.bytes).sum

def RateLimiter.toBucket (l : RateLimiter) : Bucket ℚ := ⟨l.accumulated.1, l.accumulated.2⟩

section Enforced

variable {l : RateLimiter} {c : Call} {cs : List Call} {first length : ℚ}

theorem toBucket_allow (h : l.accumulated.2 ≤ c.elapsedAt) :
    (l.allow c).1.toBucket = l.toBucket.pour (l.maxBytesPerSecond : ℚ) c.toPour := by
  have helapsed : max (c.elapsedAt - l.accumulated.2) 0 = c.elapsedAt - l.accumulated.2 :=
    max_eq_left (sub_nonneg.mpr h)
  simp only [RateLimiter.allow, helapsed]
  rfl

/-- A call returns true if the bucket accepts. -/
theorem allow_snd_iff (h : l.accumulated.2 ≤ c.elapsedAt) :
    (l.allow c).2 = true ↔
      (l.toBucket.pour (l.maxBytesPerSecond : ℚ) c.toPour).level ≤ l.maxBytesPerSecond := by
  rw [← toBucket_allow h]
  exact decide_eq_true_iff

theorem grantedIn_cons_of_pos (hgrant : (l.allow c).2 = true) (hin : c.InWindow first length) :
    l.grantedIn first length (c :: cs) = c.bytes + (l.allow c).1.grantedIn first length cs := by
  rw [RateLimiter.grantedIn, RateLimiter.answers, List.zip_cons_cons,
    List.filter_cons_of_pos (by simp [hgrant, hin]), List.map_cons, List.sum_cons]
  rfl

theorem grantedIn_cons_of_neg (h : ¬ ((l.allow c).2 = true ∧ c.InWindow first length)) :
    l.grantedIn first length (c :: cs) = (l.allow c).1.grantedIn first length cs := by
  rw [RateLimiter.grantedIn, RateLimiter.answers, List.zip_cons_cons,
    List.filter_cons_of_neg (by simpa using h)]
  rfl

/-- The limiter grants what the bucket accepts. -/
theorem grantedIn_eq (h : InOrder l.accumulated.2 cs) :
    (l.grantedIn first length cs : ℚ) =
      l.toBucket.acceptedIn (l.maxBytesPerSecond : ℚ) l.maxBytesPerSecond first length
        (cs.map Call.toPour) := by
  induction cs generalizing l with
  | nil => rfl
  | cons c cs ih =>
    obtain ⟨hstart, -, hrest⟩ := h
    have hnext := ih (l := (l.allow c).1) hrest
    rw [toBucket_allow hstart] at hnext
    rw [List.map_cons]
    by_cases hpos : (l.allow c).2 = true ∧ c.InWindow first length
    · rw [grantedIn_cons_of_pos hpos.1 hpos.2,
        Bucket.acceptedIn_cons_of_pos ((allow_snd_iff hstart).mp hpos.1) hpos.2, Nat.cast_add,
        hnext]
      rfl
    · have hneg : ¬ ((l.toBucket.pour (l.maxBytesPerSecond : ℚ) c.toPour).level ≤
          l.maxBytesPerSecond ∧ c.toPour.Meets first length) := by
        rintro ⟨haccept, hin⟩
        exact hpos ⟨(allow_snd_iff hstart).mpr haccept, hin⟩
      rw [grantedIn_cons_of_neg hpos, Bucket.acceptedIn_cons_of_neg hneg, hnext]
      rfl

end Enforced

/-- **The rate limiter enforces its rate.** In a window of time the bytes of the calls that
return true are at most those of a second and of the length of the window. -/
theorem grantedIn_le (maxBytesPerSecond : Nat) (start : ℚ) {cs : List Call}
    (hcs : InOrder start cs) (first : ℚ) {length : ℚ} (hlength : 0 ≤ length) :
    ((RateLimiter.new maxBytesPerSecond start).grantedIn first length cs : ℚ) ≤
      maxBytesPerSecond + maxBytesPerSecond * length := by
  have hrate : (0 : ℚ) ≤ maxBytesPerSecond := Nat.cast_nonneg _
  have hbytes : ∀ p ∈ cs.map Call.toPour, 0 ≤ p.amount := by
    intro p hp
    obtain ⟨c, -, rfl⟩ := List.mem_map.mp hp
    exact Nat.cast_nonneg _
  rw [grantedIn_eq (l := RateLimiter.new maxBytesPerSecond start) hcs]
  exact Bucket.acceptedIn_le hrate hrate hlength hcs hbytes

/-- What the limiter answers to a full second of bytes, and to one byte at the same moment. -/
example : (RateLimiter.new 1024 0).answers [⟨0, 0, 1024⟩, ⟨0, 0, 1⟩] = [true, false] := by
  decide +kernel

/-- A second after another, with a refused request between them. -/
theorem grantedIn_le_second :
    ((RateLimiter.new 1024 0).grantedIn 0 1 [⟨0, 0, 1024⟩, ⟨0, 0, 1⟩, ⟨1, 1, 1023⟩] : ℚ) ≤
      (1024 : Nat) + (1024 : Nat) * 1 := by
  have horder : InOrder 0 [⟨0, 0, 1024⟩, ⟨0, 0, 1⟩, ⟨1, 1, 1023⟩] := by
    refine ⟨le_rfl, le_rfl, le_rfl, le_rfl, ?_, le_rfl, trivial⟩
    exact zero_le_one
  exact grantedIn_le 1024 0 horder 0 zero_le_one

end P2PTransfer.Bandwidth
