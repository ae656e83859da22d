import Mathlib

/-!
# Labelled machines and their runs

A machine is a partial step function on labelled actions. A run is taken under a
side condition `ok` on the state before each step and the action taken there, so
that one machine serves both the runs of an ideal environment and the runs in
which anything may go wrong.

## Main definitions

- `guarded` — a state taken only under a decidable guard
- `Machine.run` — the outcome of a fixed list of actions
- `Machine.Always`, `Machine.Meets` — what all states, and all steps, of such a run satisfy
- `Machine.Reach` — the states of the runs under a side condition
- `Machine.Stuck` — no permitted action is enabled
- `Machine.EndsIn` — every run is finite and stops in a state with a property
-/

namespace Transition

variable {σ α : Type*}

/-- The state `s` when the guard `c` holds, and no state otherwise. -/
def guarded (c : Prop) [Decidable c] (s : σ) : Option σ := if c then some s else none

@[simp] theorem guarded_eq_some {c : Prop} [Decidable c] {s t : σ} :
    guarded c s = some t ↔ c ∧ s = t := by
  unfold guarded
  split <;> simp_all

@[simp] theorem guarded_eq_none {c : Prop} [Decidable c] {s : σ} :
    guarded c s = none ↔ ¬ c := by
  unfold guarded
  split <;> simp_all

theorem guarded_map {τ : Type*} {c : Prop} [Decidable c] {s : σ} (f : σ → τ) :
    (guarded c s).map f = guarded c (f s) := by
  unfold guarded
  split <;> rfl

/-- A machine is given by what each action does to each state, if it is enabled. -/
structure Machine (σ α : Type*) where
  step : σ → α → Option σ

namespace Machine

/-- The state after a list of actions, if each is enabled in its turn. -/
def run (M : Machine σ α) : σ → List α → Option σ
  | s, [] => some s
  | s, a :: as => (M.step s a).bind fun t => run M t as

variable (M : Machine σ α)

/-- Every state on the way through a list of actions has a property, -/
def Always (P : σ → Prop) : σ → List α → Prop
  | s, [] => P s
  | s, a :: as => P s ∧ ∀ t, M.step s a = some t → Always P t as

/-- and every step is taken under a condition. -/
def Meets (ok : σ → α → Prop) : σ → List α → Prop
  | _, [] => True
  | s, a :: as => ok s a ∧ ∀ t, M.step s a = some t → Meets ok t as

/-- The states of the runs from `s` all of whose steps meet `ok`. -/
inductive Reach (ok : σ → α → Prop) (s : σ) : σ → Prop
  | refl : Reach ok s s
  | tail {t u : σ} {a : α} : Reach ok s t → ok t a → M.step t a = some u → Reach ok s u

/-- No action that meets `ok` is enabled. -/
def Stuck (ok : σ → α → Prop) (s : σ) : Prop := ∀ a, ok s a → M.step s a = none

/-- Every run from `s` whose steps meet `ok` is finite, and where it cannot be
continued `P` holds. -/
inductive EndsIn (ok : σ → α → Prop) (P : σ → Prop) : σ → Prop
  | intro {s : σ} : (M.Stuck ok s → P s) →
      (∀ a t, ok s a → M.step s a = some t → EndsIn ok P t) → EndsIn ok P s

variable {M} {ok ok' : σ → α → Prop} {s t u : σ} {P Q : σ → Prop}

/-- **Invariant rule.** What holds at the start and is kept by each step holds
in every state reached. -/
theorem Reach.invariant {I : σ → Prop} (h : M.Reach ok s t) (start : I s)
    (keep : ∀ t a u, I t → ok t a → M.step t a = some u → I u) : I t := by
  induction h with
  | refl => exact start
  | tail _ hok hs ih => exact keep _ _ _ ih hok hs

theorem Reach.trans (h : M.Reach ok s t) (h' : M.Reach ok t u) : M.Reach ok s u := by
  induction h' with
  | refl => exact h
  | tail _ hok hs ih => exact ih.tail hok hs

theorem Reach.head {a : α} (hok : ok s a) (hs : M.step s a = some t)
    (h : M.Reach ok t u) : M.Reach ok s u :=
  (Reach.refl.tail hok hs).trans h

theorem Reach.mono (h : M.Reach ok s t) (hw : ∀ t a, ok t a → ok' t a) : M.Reach ok' s t := by
  induction h with
  | refl => exact .refl
  | tail _ hok hs ih => exact ih.tail (hw _ _ hok) hs

theorem run_append (M : Machine σ α) (s : σ) (as bs : List α) :
    M.run s (as ++ bs) = (M.run s as).bind fun t => M.run t bs := by
  induction as generalizing s with
  | nil => rfl
  | cons a as ih =>
    rw [List.cons_append, run, run, Option.bind_assoc]
    congr 1
    funext t
    exact ih t

theorem Always.head {as : List α} (h : M.Always P s as) : P s := by
  cases as with
  | nil => exact h
  | cons a as => exact h.1

/-- **Exact condition on runs.** If a step keeps the property exactly under `ok`, then a run has
it always exactly when all its steps meet `ok`. -/
theorem always_iff_meets {K I : σ → Prop} (keep : ∀ s a t, K s → M.step s a = some t → K t)
    (exact_step : ∀ s a t, K s → I s → M.step s a = some t → (I t ↔ ok s a)) {as : List α}
    (hk : K s) (hi : I s) (h : M.run s as = some t) : M.Always I s as ↔ M.Meets ok s as := by
  induction as generalizing s with
  | nil => exact iff_of_true hi trivial
  | cons a as ih =>
    obtain ⟨u, hu, hrest⟩ := Option.bind_eq_some_iff.mp h
    have hnext : ∀ v, M.step s a = some v → v = u := by
      intro v hv
      exact Option.some.inj (hv.symm.trans hu)
    constructor
    · rintro ⟨-, hall⟩
      have hiu := (hall u hu).head
      refine ⟨(exact_step s a u hk hi hu).mp hiu, ?_⟩
      intro v hv
      obtain rfl := hnext v hv
      exact (ih (keep s a v hk hv) hiu hrest).mp (hall v hv)
    · rintro ⟨hok, hmeets⟩
      refine ⟨hi, ?_⟩
      intro v hv
      obtain rfl := hnext v hv
      exact (ih (keep s a v hk hv) ((exact_step s a v hk hi hv).mpr hok) hrest).mpr (hmeets v hv)

/-- A condition on the actions alone. -/
theorem meets_iff_forall {p : α → Prop} {as : List α} (h : M.run s as = some t) :
    M.Meets (fun _ a => p a) s as ↔ ∀ a ∈ as, p a := by
  induction as generalizing s with
  | nil => simp [Meets]
  | cons a as ih =>
    obtain ⟨u, hu, hrest⟩ := Option.bind_eq_some_iff.mp h
    rw [List.forall_mem_cons]
    constructor
    · rintro ⟨ha, hmeets⟩
      exact ⟨ha, (ih hrest).mp (hmeets u hu)⟩
    · rintro ⟨ha, hall⟩
      refine ⟨ha, ?_⟩
      intro v hv
      obtain rfl := Option.some.inj (hv.symm.trans hu)
      exact (ih hrest).mpr hall

/-- A list of actions that runs through witnesses reachability. -/
theorem reach_of_run {as : List α} (hok : ∀ t, ∀ a ∈ as, ok t a) (h : M.run s as = some t) :
    M.Reach ok s t := by
  induction as generalizing s with
  | nil =>
    simp only [run, Option.some.injEq] at h
    exact h ▸ .refl
  | cons a as ih =>
    obtain ⟨u, hu, hr⟩ := Option.bind_eq_some_iff.mp h
    exact .head (hok _ a (by simp)) hu (ih (fun t b hb => hok t b (by simp [hb])) hr)

/-- The state after a list of actions, if each is enabled and meets `ok`. -/
def runUnder (M : Machine σ α) (ok : σ → α → Prop) [∀ s a, Decidable (ok s a)] :
    σ → List α → Option σ
  | s, [] => some s
  | s, a :: as => if ok s a then (M.step s a).bind fun t => runUnder M ok t as else none

theorem reach_of_runUnder [∀ s a, Decidable (ok s a)] (as : List α)
    (h : M.runUnder ok s as = some t) : M.Reach ok s t := by
  induction as generalizing s with
  | nil =>
    simp only [runUnder, Option.some.injEq] at h
    exact h ▸ .refl
  | cons a as ih =>
    simp only [runUnder, Option.ite_none_right_eq_some, Option.bind_eq_some_iff] at h
    obtain ⟨hok, u, hu, hr⟩ := h
    exact .head hok hu (ih hr)

theorem EndsIn.step {a : α} (h : M.EndsIn ok P s) (hok : ok s a) (hs : M.step s a = some t) :
    M.EndsIn ok P t := by
  cases h with
  | intro _ next => exact next a t hok hs

theorem EndsIn.reach (h : M.EndsIn ok P s) (hr : M.Reach ok s t) : M.EndsIn ok P t :=
  hr.invariant (I := M.EndsIn ok P) h fun _ _ _ ih hok hs => ih.step hok hs

theorem EndsIn.of_stuck (h : M.EndsIn ok P s) (hs : M.Stuck ok s) : P s := by
  cases h with
  | intro stop _ => exact stop hs

/-- A run that always ends has an end. -/
theorem EndsIn.exists_stuck (h : M.EndsIn ok P s) :
    ∃ t, M.Reach ok s t ∧ M.Stuck ok t ∧ P t := by
  induction h with
  | @intro s stop _ ih =>
    by_cases hs : M.Stuck ok s
    · exact ⟨s, .refl, hs, stop hs⟩
    · simp only [Stuck, not_forall] at hs
      obtain ⟨a, hok, hne⟩ := hs
      obtain ⟨t, ht⟩ := Option.ne_none_iff_exists'.mp hne
      obtain ⟨u, hu, hsu, hpu⟩ := ih a t hok ht
      exact ⟨u, .head hok ht hu, hsu, hpu⟩

/-- **Ranking rule.** Under an invariant, a natural number that every step
lowers bounds every run. -/
theorem endsIn_of_rank (I : σ → Prop) (rank : σ → Nat)
    (keep : ∀ t a u, I t → ok t a → M.step t a = some u → I u)
    (lower : ∀ t a u, I t → ok t a → M.step t a = some u → rank u < rank t)
    (stop : ∀ t, I t → M.Stuck ok t → P t) (start : I s) : M.EndsIn ok P s := by
  generalize hn : rank s = n
  induction n using Nat.strongRecOn generalizing s with
  | ind n ih =>
    refine .intro (stop s start) fun a t hok hs => ?_
    exact ih (rank t) (hn ▸ lower s a t start hok hs) (keep s a t start hok hs) rfl

/-- Where there is one way to go on, a run ends well if it does from the next state. -/
theorem endsIn_iff_of_unique {a : α} (hok : ok s a) (hs : M.step s a = some t)
    (unique : ∀ b u, ok s b → M.step s b = some u → u = t) :
    M.EndsIn ok P s ↔ M.EndsIn ok P t := by
  constructor
  · exact fun h => h.step hok hs
  · refine fun h => .intro (fun stuck => ?_) fun b u hb hu => unique b u hb hu ▸ h
    exact absurd (stuck a hok) (by simp [hs])

theorem EndsIn.mono (h : M.EndsIn ok P s) (hw : ∀ t, M.Reach ok s t → M.Stuck ok t → P t → Q t) :
    M.EndsIn ok Q s := by
  induction h with
  | @intro s stop _ ih =>
    refine .intro (fun hs => hw s .refl hs (stop hs)) fun a t hok hs => ?_
    exact ih a t hok hs fun u hu => hw u (.head hok hs hu)

/-- Where every run ends as a condition says, the runs end well exactly under it. -/
theorem EndsIn.iff {c : Prop} (h : M.EndsIn ok (fun t => P t ↔ c) s) : M.EndsIn ok P s ↔ c := by
  constructor
  · intro hends
    obtain ⟨t, hreach, hstuck, ht⟩ := hends.exists_stuck
    exact ((h.reach hreach).of_stuck hstuck).mp ht
  · exact fun hc => h.mono fun t _ _ ht => ht.mpr hc

/-- The same without the promise that the runs end. -/
theorem EndsIn.forall_stuck_iff {c : Prop} (h : M.EndsIn ok (fun t => P t ↔ c) s) :
    (∀ t, M.Reach ok s t → M.Stuck ok t → P t) ↔ c := by
  constructor
  · intro hall
    obtain ⟨t, ht, hstuck, hiff⟩ := h.exists_stuck
    exact hiff.mp (hall t ht hstuck)
  · intro hc t ht hstuck
    exact ((h.reach ht).of_stuck hstuck).mpr hc

end Machine

end Transition
