import P2PTransfer.Lib.Duplex

/-!
# Parties that keep a log

A party may write down at each step what it wants remembered of it. The log does not matter to
what the party does: the party is still seen, and a pair of such parties shows the runs of the
pair without logs.

## Main definitions

- `Party.Shows` — a party is another one whose state says more
- `Party.logged` — a party with its log
-/

namespace Transition

variable {σ σ' τ τ' α β μ γ : Type*}

/-- A pair seen through a view of either state. -/
def Net.view (f : σ → σ') (g : τ → τ') (n : Net σ τ μ) : Net σ' τ' μ :=
  ⟨f n.left, g n.right, n.toRight, n.toLeft⟩

namespace Party

/-- What `view` leaves of the states of `P` does what `Q` does. -/
structure Shows (P : Party σ α μ) (Q : Party σ' α μ) (view : σ → σ') : Prop where
  step : ∀ s a, (P.step s a).map view = Q.step (view s) a
  recvs : ∀ a, P.recvs a = Q.recvs a
  sends : ∀ s a, P.sends s a = Q.sends (view s) a
  hangup : ∀ a, P.hangup a = Q.hangup a
  closed : ∀ s, P.closed s = Q.closed (view s)

section Link

variable [DecidableEq μ] {P : Party σ α μ} {P' : Party σ' α μ} {Q : Party τ β μ}
  {Q' : Party τ' β μ} {f : σ → σ'} {g : τ → τ'}

theorem Shows.link_step (hP : P.Shows P' f) (hQ : Q.Shows Q' g) (n : Net σ τ μ) (a : α ⊕ β) :
    ((P.link Q).step n a).map (Net.view f g) = (P'.link Q').step (n.view f g) a := by
  cases a with
  | inl a =>
    simp only [link, Net.view, hP.recvs, hP.hangup, hP.sends, hQ.closed, ← hP.step, Option.map_map]
    split
    · exact Option.map_map _ _ _
    · rfl
  | inr b =>
    simp only [link, Net.view, hQ.recvs, hQ.hangup, hQ.sends, hP.closed, ← hQ.step, Option.map_map]
    split
    · exact Option.map_map _ _ _
    · rfl

/-- The runs of a pair are what is seen of the runs of the pair that says more. -/
theorem Shows.reach (hP : P.Shows P' f) (hQ : Q.Shows Q' g)
    {ok : Net σ' τ' μ → α ⊕ β → Prop} {n₀ : Net σ τ μ} {n : Net σ' τ' μ}
    (h : (P'.link Q').Reach ok (n₀.view f g) n) :
    ∃ m, (P.link Q).Reach (fun m => ok (m.view f g)) n₀ m ∧ m.view f g = n := by
  induction h with
  | refl => exact ⟨n₀, .refl, rfl⟩
  | tail _ hok hs ih =>
    obtain ⟨m, hreach, rfl⟩ := ih
    obtain ⟨m', hm', rfl⟩ := Option.map_eq_some_iff.mp ((hP.link_step hQ m _).trans hs)
    exact ⟨m', hreach.tail hok hm', rfl⟩

end Link

/-- `log s a t` is what the step from `s` to `t` adds. -/
def logged (P : Party σ α μ) (log : σ → α → σ → List γ) : Party (σ × List γ) α μ where
  step s a := (P.step s.1 a).map fun t => (t, s.2 ++ log s.1 a t)
  recvs := P.recvs
  sends s a := P.sends s.1 a
  hangup := P.hangup
  closed s := P.closed s.1

variable {P : Party σ α μ} {log : σ → α → σ → List γ}

theorem logged_step {s t : σ × List γ} {a : α} :
    (P.logged log).step s a = some t ↔
      P.step s.1 a = some t.1 ∧ t.2 = s.2 ++ log s.1 a t.1 := by
  simp only [logged, Option.map_eq_some_iff]
  constructor
  · rintro ⟨u, hu, rfl⟩
    exact ⟨hu, rfl⟩
  · rintro ⟨hs, hlog⟩
    exact ⟨t.1, hs, Prod.ext rfl hlog.symm⟩

theorem logged_shows (P : Party σ α μ) (log : σ → α → σ → List γ) :
    (P.logged log).Shows P Prod.fst where
  step s a := by simp [logged, Function.comp_def]
  recvs _ := rfl
  sends _ _ := rfl
  hangup _ := rfl
  closed _ := rfl

end Party

end Transition
