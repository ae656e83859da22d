import Mathlib

/-!
# Gates that charge for refused requests

A gate admits or refuses each request of a list, and every request changes its state. The
question is whether the refused ones can be seen in the answers to the others. Where the states
have an order in which a lower one admits more, this is decided by one other run: that of the
same gate when a refused request leaves the state as it was.

## Main definitions

- `Gate` — what is admitted, and what a request does to the state
- `Gate.answers`, `Gate.pass` — the run, and the state of the run that forgets refused requests
- `Gate.Omits`, `Gate.Traceless` — leaving out refused requests, and that it changes no answer
- `Gate.Ordered` — the laws of the order

## Main results

- `Gate.traceless_iff` — refused requests leave no trace exactly if none of them keeps out a
  request that the forgetful run admits
-/

structure Gate (σ α : Type*) where
  admits : σ → α → Bool
  step : σ → α → σ

namespace Gate

variable {σ α : Type*} (G : Gate σ α)

/-- The answers to a list of requests. -/
def answers : σ → List α → List Bool
  | _, [] => []
  | s, a :: as => G.admits s a :: answers (G.step s a) as

/-- The state after a request, if a refused one is forgotten. -/
def passOne (s : σ) (a : α) : σ := if G.admits s a then G.step s a else s

def pass : σ → List α → σ := List.foldl G.passOne

/-- The answers, if refused requests are forgotten. -/
def forgetful : σ → List α → List Bool
  | _, [] => []
  | s, a :: as => G.admits s a :: forgetful (G.passOne s a) as

/-- Some refused requests are left out. -/
inductive Omits : List (α × Bool) → List (α × Bool) → Prop
  | nil : Omits [] []
  | keep {xs ys : List (α × Bool)} (x : α × Bool) : Omits xs ys → Omits (x :: xs) (x :: ys)
  | drop {xs ys : List (α × Bool)} (a : α) : Omits xs ys → Omits ((a, false) :: xs) ys

/-- From another state the requests that are kept have the answers that they had. -/
def Agrees (s t : σ) (as : List α) : Prop :=
  ∀ kept, Omits (as.zip (G.answers t as)) kept →
    G.answers s (kept.map Prod.fst) = kept.map Prod.snd

/-- Refused requests leave no trace in the other answers. -/
def Traceless (s : σ) (as : List α) : Prop := G.Agrees s s as

/-- The requests can follow each other. -/
def Valid (ready : σ → α → Prop) : σ → List α → Prop
  | _, [] => True
  | s, a :: as => ready s a ∧ Valid ready (G.step s a) as

/-- An order in which requests lead upwards and a lower state admits more. -/
structure Ordered (below : σ → σ → Prop) (ready : σ → α → Prop) : Prop where
  self : ∀ s t, below s t → below s s
  earlier : ∀ s t a, below s t → ready t a → ready s a
  admits : ∀ s t a, below s t → ready t a → G.admits t a = true → G.admits s a = true
  step : ∀ s t a, below s t → ready t a → below (G.step s a) (G.step t a)
  skip : ∀ s t a, below s t → ready t a → below s (G.step t a)

variable {G} {below : σ → σ → Prop} {ready : σ → α → Prop} {s t u : σ} {a : α} {as : List α}

theorem Omits.refl (xs : List (α × Bool)) : Omits xs xs := by
  induction xs with
  | nil => exact .nil
  | cons x xs ih => exact .keep x ih

theorem pass_append (s : σ) (as : List α) (a : α) :
    G.pass s (as ++ [a]) = G.passOne (G.pass s as) a := by
  rw [pass, List.foldl_append]
  rfl

section Agrees

/-- A request that is admitted by both goes on in both. -/
theorem agrees_cons_of_admits (ht : G.admits t a = true) (hs : G.admits s a = true) :
    G.Agrees s t (a :: as) ↔ G.Agrees (G.step s a) (G.step t a) as := by
  constructor
  · intro h kept hkept
    have hcons := h ((a, true) :: kept) (by
      rw [answers, ht]
      exact .keep _ hkept)
    rw [List.map_cons, List.map_cons, answers] at hcons
    exact (List.cons.inj hcons).2
  · intro h kept hkept
    rw [answers, ht, List.zip_cons_cons] at hkept
    cases hkept with
    | keep _ hrest => rw [List.map_cons, List.map_cons, answers, hs, h _ hrest]

/-- A refused one can be kept or left out. -/
theorem agrees_cons_of_refuses (ht : G.admits t a = false) :
    G.Agrees s t (a :: as) ↔ G.admits s a = false ∧ G.Agrees (G.step s a) (G.step t a) as ∧
      G.Agrees s (G.step t a) as := by
  constructor
  · intro h
    have hhead := h ((a, false) :: as.zip (G.answers (G.step t a) as)) (by
      rw [answers, ht]
      exact .refl _)
    rw [List.map_cons, List.map_cons, answers] at hhead
    refine ⟨(List.cons.inj hhead).1, ?_, ?_⟩
    · intro kept hkept
      have hcons := h ((a, false) :: kept) (by
        rw [answers, ht]
        exact .keep _ hkept)
      rw [List.map_cons, List.map_cons, answers] at hcons
      exact (List.cons.inj hcons).2
    · intro kept hkept
      apply h kept
      rw [answers, ht]
      exact .drop a hkept
  · rintro ⟨hs, hkeep, hdrop⟩ kept hkept
    rw [answers, ht, List.zip_cons_cons] at hkept
    cases hkept with
    | keep _ hrest => rw [List.map_cons, List.map_cons, answers, hs, hkeep _ hrest]
    | drop _ hrest => exact hdrop kept hrest

end Agrees

section Ordered

/-- What the forgetful run does stays below what the gate does. -/
theorem Ordered.passOne (hG : G.Ordered below ready) (hst : below s t) (ha : ready t a) :
    below (G.passOne s a) (G.step t a) := by
  rw [Gate.passOne]
  split
  · exact hG.step s t a hst ha
  · exact hG.skip s t a hst ha

/-- A request that is refused below is refused above. -/
theorem Ordered.refuses (hG : G.Ordered below ready) (hst : below s t) (ha : ready t a)
    (hs : G.admits s a = false) : G.admits t a = false := by
  apply Bool.eq_false_of_not_eq_true
  intro ht
  rw [hG.admits s t a hst ha ht] at hs
  exact Bool.noConfusion hs

theorem forgetful_cons_of_admits (hs : G.admits s a = true) :
    G.forgetful s (a :: as) = true :: G.forgetful (G.step s a) as := by
  rw [forgetful, passOne, hs, if_pos rfl]

theorem forgetful_cons_of_refuses (hs : G.admits s a = false) :
    G.forgetful s (a :: as) = false :: G.forgetful s as := by
  rw [forgetful, passOne, hs, if_neg Bool.false_ne_true]

/-- What the forgetful run answers as the gate does, it answers so from every state between
them. -/
theorem forgetful_eq_of_between (hG : G.Ordered below ready) (hsu : below s u) (hut : below u t)
    (has : G.Valid ready t as) (h : G.forgetful s as = G.answers t as) :
    G.forgetful u as = G.answers t as := by
  induction as generalizing s u t with
  | nil => rfl
  | cons a as ih =>
    obtain ⟨ha, hrest⟩ := has
    have hua : ready u a := hG.earlier u t a hut ha
    cases hs : G.admits s a with
    | true =>
      rw [forgetful_cons_of_admits hs, answers] at h
      obtain ⟨hhead, htail⟩ := List.cons.inj h
      have hu : G.admits u a = true := hG.admits u t a hut ha hhead.symm
      rw [forgetful_cons_of_admits hu, answers, ← hhead,
        ih (hG.step s u a hsu hua) (hG.step u t a hut ha) hrest htail]
    | false =>
      rw [forgetful_cons_of_refuses hs, answers] at h
      obtain ⟨hhead, htail⟩ := List.cons.inj h
      have hu : G.admits u a = false := hG.refuses hsu hua hs
      rw [forgetful_cons_of_refuses hu, answers, ← hhead,
        ih hsu (hG.skip u t a hut ha) hrest htail]

/-- The requests that are kept are answered as before exactly if the forgetful run answers all
of them so. -/
theorem agrees_iff_forgetful (hG : G.Ordered below ready) (hst : below s t)
    (has : G.Valid ready t as) :
    G.Agrees s t as ↔ G.forgetful s as = G.answers t as := by
  induction as generalizing s t with
  | nil =>
    refine ⟨fun _ => rfl, ?_⟩
    intro _ kept hkept
    cases hkept
    rfl
  | cons a as ih =>
    obtain ⟨ha, hrest⟩ := has
    cases ht : G.admits t a with
    | true =>
      have hs : G.admits s a = true := hG.admits s t a hst ha ht
      rw [agrees_cons_of_admits ht hs, forgetful_cons_of_admits hs, answers, ht,
        ih (hG.step s t a hst ha) hrest]
      simp
    | false =>
      have hskip : below s (G.step t a) := hG.skip s t a hst ha
      rw [agrees_cons_of_refuses ht, ih (hG.step s t a hst ha) hrest, ih hskip hrest, answers, ht]
      cases hs : G.admits s a with
      | true =>
        rw [forgetful_cons_of_admits hs]
        simp
      | false =>
        rw [forgetful_cons_of_refuses hs]
        constructor
        · intro h
          rw [h.2.2]
        · intro h
          have hforget := (List.cons.inj h).2
          have hkeep : G.forgetful (G.step s a) as = G.answers (G.step t a) as :=
            forgetful_eq_of_between hG
              (hG.skip s s a (hG.self s t hst) (hG.earlier s t a hst ha))
              (hG.step s t a hst ha) hrest hforget
          exact ⟨rfl, hkeep, hforget⟩

/-- The forgetful run answers as the gate does if the gate admits what it admits. -/
theorem forgetful_eq_iff (hG : G.Ordered below ready) (hst : below s t)
    (has : G.Valid ready t as) :
    G.forgetful s as = G.answers t as ↔
      ∀ earlier a later, as = earlier ++ a :: later → G.admits (G.pass s earlier) a = true →
        G.admits (earlier.foldl G.step t) a = true := by
  induction as generalizing s t with
  | nil =>
    refine ⟨?_, fun _ => rfl⟩
    intro _ earlier a later h
    exact absurd h.symm (by simp)
  | cons b as ih =>
    obtain ⟨hb, hrest⟩ := has
    rw [forgetful, answers, List.cons.injEq, ih (hG.passOne hst hb) hrest]
    constructor
    · rintro ⟨hhead, htail⟩ earlier a later h hadmit
      cases earlier with
      | nil =>
        obtain ⟨rfl, -⟩ := List.cons.inj h
        exact hhead.symm.trans hadmit
      | cons c earlier =>
        obtain ⟨rfl, hlater⟩ := List.cons.inj h
        exact htail earlier a later hlater hadmit
    · intro h
      constructor
      · apply Bool.eq_iff_iff.mpr
        exact ⟨h [] b as rfl, hG.admits s t b hst hb⟩
      · intro earlier a later hlater hadmit
        apply h (b :: earlier) a later _ hadmit
        rw [hlater]
        rfl

/-- **Refused requests leave no trace** exactly if they keep out no request that is admitted
when they are forgotten. -/
theorem traceless_iff (hG : G.Ordered below ready) (hs : below s s) (has : G.Valid ready s as) :
    G.Traceless s as ↔
      ∀ earlier a later, as = earlier ++ a :: later → G.admits (G.pass s earlier) a = true →
        G.admits (earlier.foldl G.step s) a = true :=
  (agrees_iff_forgetful hG hs has).trans (forgetful_eq_iff hG hs has)

end Ordered

end Gate
