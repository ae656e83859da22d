import P2PTransfer.Lib.Gate
import P2PTransfer.Network.Bandwidth

/-!
# Refused requests of the rate limiter

A token bucket takes nothing for a request that it refuses. The `RateLimiter` adds the bytes
before it compares, so that a refused request counts like any other. A list of calls does not
show it exactly if each call that fits beside the fitting ones before it fits beside all the
calls before it.

## Main definitions

- `RateLimiter.RefusalsFree` — leaving out refused calls changes none of the other answers
- `Fits` — a call exceeds the rate in no window of a list that ends with it
- `fitting` — the calls that fit beside the fitting ones before them

## Main results

- `allow_after_iff` — a call is granted if it fits beside all the calls before it
- `refusalsFree_iff` — when refused calls cost nothing
-/

namespace P2PTransfer.Bandwidth

open LeakyBucket

namespace RateLimiter

def gate : Gate RateLimiter Call where
  admits l c := (l.allow c).2
  step l c := (l.allow c).1

/-- A refused call costs nothing: without some of them the others return what they returned. -/
def RefusalsFree (l : RateLimiter) (cs : List Call) : Prop :=
  ∀ kept, Gate.Omits (cs.zip (l.answers cs)) kept →
    l.answers (kept.map Prod.fst) = kept.map Prod.snd

/-- The limiter after some calls. -/
def after (l : RateLimiter) (cs : List Call) : RateLimiter := cs.foldl gate.step l

/-- The limiter that forgets refused calls, after some of them. -/
def afterGranted (l : RateLimiter) (cs : List Call) : RateLimiter := gate.pass l cs

end RateLimiter

def totalBytes (cs : List Call) : Nat := (cs.map Call.bytes).sum

/-- The time between the first call and the last in which the count decays. -/
def decayTime : List Call → ℚ
  | [] => 0
  | [_] => 0
  | c :: d :: cs => d.elapsedAt - c.now + decayTime (d :: cs)

/-- In no window that ends with the call are more bytes asked for than those of a second and of
the time that decays. -/
def Fits (maxBytesPerSecond : Nat) (earlier : List Call) (c : Call) : Prop :=
  ∀ window, window <:+ earlier ++ [c] →
    (totalBytes window : ℚ) ≤ maxBytesPerSecond + maxBytesPerSecond * decayTime window

instance (maxBytesPerSecond : Nat) (earlier : List Call) (c : Call) :
    Decidable (Fits maxBytesPerSecond earlier c) :=
  decidable_of_iff (∀ window ∈ (earlier ++ [c]).tails,
    (totalBytes window : ℚ) ≤ maxBytesPerSecond + maxBytesPerSecond * decayTime window)
    (forall_congr' fun window => by rw [List.mem_tails])

/-- The calls that fit beside the fitting ones before them. -/
def fitting (maxBytesPerSecond : Nat) (cs : List Call) : List Call :=
  cs.foldl (fun kept c => if Fits maxBytesPerSecond kept c then kept ++ [c] else kept) []

section Windows

variable {maxBytesPerSecond : Nat} {start : ℚ} {l : RateLimiter} {c : Call}
  {cs ds : List Call}

theorem InOrder.sublist (h : InOrder start cs) (hsub : ds.Sublist cs) : InOrder start ds :=
  Timely.sublist h (hsub.map Call.toPour)

theorem total_map_toPour : Bucket.total (cs.map Call.toPour) = (totalBytes cs : ℚ) := by
  induction cs with
  | nil => rfl
  | cons c cs ih =>
    rw [List.map_cons, Bucket.total_cons, ih, totalBytes, totalBytes, List.map_cons,
      List.sum_cons, Nat.cast_add]
    rfl

theorem leak_map_toPour : Bucket.leak c.now (cs.map Call.toPour) = decayTime (c :: cs) := by
  induction cs generalizing c with
  | nil => rfl
  | cons d cs ih =>
    rw [List.map_cons, Bucket.leak, decayTime, ← ih]
    rfl

/-- What a window pours into the bucket, less what leaks in it, is within the capacity. -/
theorem window_le_iff :
    Bucket.total ((c :: cs).map Call.toPour) -
        maxBytesPerSecond * Bucket.leak c.now (cs.map Call.toPour) ≤ maxBytesPerSecond ↔
      (totalBytes (c :: cs) : ℚ) ≤
        maxBytesPerSecond + maxBytesPerSecond * decayTime (c :: cs) := by
  rw [total_map_toPour, leak_map_toPour, sub_le_iff_le_add]

theorem maxBytesPerSecond_after (l : RateLimiter) (cs : List Call) :
    (l.after cs).maxBytesPerSecond = l.maxBytesPerSecond := by
  induction cs generalizing l with
  | nil => rfl
  | cons c cs ih => exact ih _

/-- The calls pour their bytes into the bucket. -/
theorem toBucket_after (h : InOrder l.accumulated.2 cs) :
    (l.after cs).toBucket =
      (cs.map Call.toPour).foldl (Bucket.pour (l.maxBytesPerSecond : ℚ)) l.toBucket := by
  induction cs generalizing l with
  | nil => rfl
  | cons c cs ih =>
    obtain ⟨hstart, -, hrest⟩ := h
    have hnext := ih (l := (l.allow c).1) hrest
    rw [toBucket_allow hstart] at hnext
    exact hnext

theorem after_append (l : RateLimiter) (cs : List Call) (c : Call) :
    l.after (cs ++ [c]) = ((l.after cs).allow c).1 := by
  rw [RateLimiter.after, List.foldl_append]
  rfl

/-- A call is granted if the bytes that it asks for are within the rate, together with those
before it. -/
theorem allow_after_iff_level :
    ((l.after cs).allow c).2 = true ↔
      (l.after (cs ++ [c])).toBucket.level ≤ l.maxBytesPerSecond := by
  rw [after_append, ← maxBytesPerSecond_after l cs]
  exact decide_eq_true_iff

/-- A call is granted if it fits beside all the calls before it. -/
theorem allow_after_iff (maxBytesPerSecond : Nat) (h : InOrder start (cs ++ [c])) :
    (((RateLimiter.new maxBytesPerSecond start).after cs).allow c).2 = true ↔
      Fits maxBytesPerSecond cs c := by
  have hrate : (0 : ℚ) ≤ maxBytesPerSecond := Nat.cast_nonneg _
  have htimely : Timely (RateLimiter.new maxBytesPerSecond start).toBucket.time
      ((cs ++ [c]).map Call.toPour) := h
  rw [allow_after_iff_level, toBucket_after (l := RateLimiter.new maxBytesPerSecond start) h]
  refine (Bucket.level_foldl_le_iff_of_empty rfl hrate hrate htimely).trans ?_
  constructor
  · intro hwindows window hwindow
    cases window with
    | nil =>
      have hzero : (totalBytes [] : ℚ) = 0 := Nat.cast_zero
      rw [hzero, decayTime, mul_zero, add_zero]
      exact hrate
    | cons d ds =>
      exact window_le_iff.mp (hwindows d.toPour (ds.map Call.toPour) (hwindow.map Call.toPour))
  · intro hfits p qs hsuffix
    obtain ⟨window, hwindow, hmap⟩ := List.suffix_map_iff.mp hsuffix
    cases window with
    | nil => exact absurd hmap (List.cons_ne_nil p qs)
    | cons d ds =>
      obtain ⟨rfl, rfl⟩ := List.cons.inj hmap
      exact window_le_iff.mpr (hfits (d :: ds) hwindow)

end Windows

section Order

variable {maxBytesPerSecond : Nat} {start : ℚ} {l m : RateLimiter} {c : Call} {cs : List Call}

/-- The clock shows the calls one after the other. -/
def Ready (l : RateLimiter) (c : Call) : Prop :=
  l.accumulated.2 ≤ c.elapsedAt ∧ c.elapsedAt ≤ c.now

/-- Of two limiters for one rate the first has counted less. -/
def CountsLess (l m : RateLimiter) : Prop :=
  l.maxBytesPerSecond = m.maxBytesPerSecond ∧
    Bucket.Below (l.maxBytesPerSecond : ℚ) l.toBucket m.toBucket

theorem valid_of_inOrder (h : InOrder l.accumulated.2 cs) :
    RateLimiter.gate.Valid Ready l cs := by
  induction cs generalizing l with
  | nil => trivial
  | cons c cs ih => exact ⟨⟨h.1, h.2.1⟩, ih h.2.2⟩

/-- A limiter that has counted less grants more. -/
theorem gate_ordered : RateLimiter.gate.Ordered CountsLess Ready where
  self l m h := ⟨rfl, Bucket.Below.refl h.2.nonneg⟩
  earlier l m c h hc := ⟨h.2.time_le.trans hc.1, hc.2⟩
  admits l m c h hc hm := by
    have hl : l.accumulated.2 ≤ c.elapsedAt := h.2.time_le.trans hc.1
    apply (allow_snd_iff hl).mpr
    refine h.2.level_pour_le.trans ?_
    rw [h.1]
    exact (allow_snd_iff hc.1).mp hm
  step l m c h hc := by
    have hl : l.accumulated.2 ≤ c.elapsedAt := h.2.time_le.trans hc.1
    refine ⟨h.1, ?_⟩
    have hpour := h.2.pour (p := c.toPour) (Nat.cast_nonneg _)
    rw [← toBucket_allow hl, h.1, ← toBucket_allow hc.1, ← h.1] at hpour
    exact hpour
  skip l m c h hc := by
    refine ⟨h.1, ?_⟩
    have hskip := h.2.skip (p := c.toPour) (Nat.cast_nonneg _) (Nat.cast_nonneg _) hc.1 hc.2
    rw [h.1, ← toBucket_allow hc.1, ← h.1] at hskip
    exact hskip

theorem gate_answers (l : RateLimiter) (cs : List Call) :
    RateLimiter.gate.answers l cs = l.answers cs := by
  induction cs generalizing l with
  | nil => rfl
  | cons c cs ih => exact congrArg (List.cons _) (ih _)

theorem refusalsFree_iff_traceless :
    l.RefusalsFree cs ↔ RateLimiter.gate.Traceless l cs := by
  simp only [RateLimiter.RefusalsFree, Gate.Traceless, Gate.Agrees, gate_answers]

theorem fitting_append (maxBytesPerSecond : Nat) (cs : List Call) (c : Call) :
    fitting maxBytesPerSecond (cs ++ [c]) =
      if Fits maxBytesPerSecond (fitting maxBytesPerSecond cs) c then
        fitting maxBytesPerSecond cs ++ [c]
      else fitting maxBytesPerSecond cs := by
  rw [fitting, List.foldl_append]
  rfl

theorem fitting_sublist (maxBytesPerSecond : Nat) (cs : List Call) :
    (fitting maxBytesPerSecond cs).Sublist cs := by
  induction cs using List.reverseRecOn with
  | nil => exact .slnil
  | append_singleton cs c ih =>
    rw [fitting_append]
    split
    · exact ih.append (List.Sublist.refl _)
    · exact ih.trans (List.sublist_append_left cs [c])

theorem fitting_append_sublist (maxBytesPerSecond : Nat) (cs : List Call) (c : Call) :
    (fitting maxBytesPerSecond cs ++ [c]).Sublist (cs ++ [c]) :=
  (fitting_sublist maxBytesPerSecond cs).append (List.Sublist.refl _)

/-- What the limiter grants when it forgets refused calls are the fitting ones. -/
theorem afterGranted_eq (h : InOrder start cs) :
    (RateLimiter.new maxBytesPerSecond start).afterGranted cs =
      (RateLimiter.new maxBytesPerSecond start).after (fitting maxBytesPerSecond cs) := by
  induction cs using List.reverseRecOn with
  | nil => rfl
  | append_singleton cs c ih =>
    have hcs : InOrder start cs := h.sublist (List.sublist_append_left cs [c])
    have hallow := allow_after_iff maxBytesPerSecond
      (h.sublist (fitting_append_sublist maxBytesPerSecond cs c))
    rw [RateLimiter.afterGranted] at ih
    rw [RateLimiter.afterGranted, Gate.pass_append, ih hcs, fitting_append]
    by_cases hfits : Fits maxBytesPerSecond (fitting maxBytesPerSecond cs) c
    · rw [if_pos hfits, after_append]
      exact if_pos (hallow.mpr hfits)
    · rw [if_neg hfits]
      exact if_neg fun hgrant => hfits (hallow.mp hgrant)

end Order

/-- **When refused calls cost nothing.** They change none of the other answers exactly if every
call that fits beside the fitting ones before it fits beside all the calls before it. -/
theorem refusalsFree_iff (maxBytesPerSecond : Nat) (start : ℚ) {cs : List Call}
    (hcs : InOrder start cs) :
    (RateLimiter.new maxBytesPerSecond start).RefusalsFree cs ↔
      ∀ earlier c later, cs = earlier ++ c :: later →
        Fits maxBytesPerSecond (fitting maxBytesPerSecond earlier) c →
          Fits maxBytesPerSecond earlier c := by
  have hself : CountsLess (RateLimiter.new maxBytesPerSecond start)
      (RateLimiter.new maxBytesPerSecond start) := ⟨rfl, Bucket.Below.refl le_rfl⟩
  rw [refusalsFree_iff_traceless, Gate.traceless_iff gate_ordered hself (valid_of_inOrder hcs)]
  apply forall₄_congr
  rintro earlier c later rfl
  have hall : InOrder start (earlier ++ [c]) := hcs.sublist
    ((List.Sublist.refl earlier).append (List.singleton_sublist.mpr List.mem_cons_self))
  have hforget := allow_after_iff maxBytesPerSecond
    (hall.sublist (fitting_append_sublist maxBytesPerSecond earlier c))
  rw [← afterGranted_eq (hall.sublist (List.sublist_append_left earlier [c]))] at hforget
  exact imp_congr hforget (allow_after_iff maxBytesPerSecond hall)

/-- A byte asked for together with a request above the limit. -/
theorem not_refusalsFree_polling :
    InOrder 0 [⟨0, 0, 2000⟩, ⟨0, 0, 1⟩] ∧
      ¬ (RateLimiter.new 1024 0).RefusalsFree [⟨0, 0, 2000⟩, ⟨0, 0, 1⟩] := by
  refine ⟨⟨le_rfl, le_rfl, le_rfl, le_rfl, trivial⟩, ?_⟩
  intro h
  have hanswers : (RateLimiter.new 1024 0).answers [⟨0, 0, 2000⟩, ⟨0, 0, 1⟩] = [false, false] := by
    decide +kernel
  have halone : (RateLimiter.new 1024 0).answers [⟨0, 0, 1⟩] = [true] := by decide +kernel
  have hkept := h [(⟨0, 0, 1⟩, false)] (by
    rw [hanswers]
    exact .drop _ (.keep _ .nil))
  rw [List.map_cons, List.map_nil, halone] at hkept
  exact absurd hkept (by decide)

/-- A refused byte, and a second later a call that fits nevertheless. -/
theorem refusalsFree_second :
    (RateLimiter.new 1024 0).RefusalsFree [⟨0, 0, 1024⟩, ⟨0, 0, 1⟩, ⟨1, 1, 1000⟩] := by
  have horder : InOrder 0 [⟨0, 0, 1024⟩, ⟨0, 0, 1⟩, ⟨1, 1, 1000⟩] := by
    refine ⟨le_rfl, le_rfl, le_rfl, le_rfl, ?_, le_rfl, trivial⟩
    exact zero_le_one
  apply (refusalsFree_iff 1024 0 horder).mpr
  intro earlier c later hsplit
  rcases earlier with _ | ⟨a, _ | ⟨b, _ | ⟨d, rest⟩⟩⟩
  · obtain ⟨rfl, -⟩ := List.cons.inj hsplit
    decide +kernel
  · obtain ⟨rfl, htail⟩ := List.cons.inj hsplit
    obtain ⟨rfl, -⟩ := List.cons.inj htail
    decide +kernel
  · obtain ⟨rfl, htail⟩ := List.cons.inj hsplit
    obtain ⟨rfl, hlast⟩ := List.cons.inj htail
    obtain ⟨rfl, -⟩ := List.cons.inj hlast
    decide +kernel
  · exact absurd (congrArg List.length hsplit) (by simp)

end P2PTransfer.Bandwidth
