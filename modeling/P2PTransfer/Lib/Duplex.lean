import P2PTransfer.Lib.Run

/-!
# Two parties on a reliable duplex link

Two machines exchange messages over two first-in first-out queues. Each side is
described on its own, by what an action takes off the incoming queue and what it
puts on the outgoing one. What holds of one side for all its histories is then
carried over to the pair.

## Main definitions

- `Party` — a machine with its messages
- `Party.link` — the machine of two linked parties
- `Party.Trace` — the states of one party with the messages taken and put so far
- `Party.Linked` — properties of both histories of a pair
- `Party.LinkRun` — the runs of a pair with what each side has put on the link
- `Party.Stands`, `Party.Waiting` — a party can move, waits for a message, or is through
- `Party.linkRank` — a rank of the pair from ranks of the parties
-/

namespace Transition

variable {σ τ α β μ : Type*}

/-- One end of a link. `hangup a` says that the action `a` observes the end of
the incoming messages, and `closed s` that the party has let go of the link. -/
structure Party (σ α μ : Type*) extends Machine σ α where
  recvs : α → List μ
  sends : σ → α → List μ
  hangup : α → Bool := fun _ => false
  closed : σ → Bool := fun _ => false

/-- Two parties and the messages in flight. -/
structure Net (σ τ μ : Type*) where
  left : σ
  right : τ
  toRight : List μ := []
  toLeft : List μ := []

namespace Party

variable [DecidableEq μ] (P : Party σ α μ) (Q : Party τ β μ)

/-- The linked pair. An action that takes messages needs them at the head of its
queue, one that observes the end needs an empty queue and a closed peer. -/
def link : Machine (Net σ τ μ) (α ⊕ β) where
  step n
    | .inl a =>
      if P.recvs a <+: n.toLeft ∧ (P.hangup a → n.toLeft = [] ∧ Q.closed n.right) then
        (P.step n.left a).map fun s =>
          { n with left := s, toLeft := n.toLeft.drop (P.recvs a).length,
                   toRight := n.toRight ++ P.sends n.left a }
      else none
    | .inr b =>
      if Q.recvs b <+: n.toRight ∧ (Q.hangup b → n.toRight = [] ∧ P.closed n.left) then
        (Q.step n.right b).map fun t =>
          { n with right := t, toRight := n.toRight.drop (Q.recvs b).length,
                   toLeft := n.toLeft ++ Q.sends n.right b }
      else none

/-- The histories of one party: messages taken, messages put, state. -/
inductive Trace (ok : σ → α → Prop) (s₀ : σ) : List μ → List μ → σ → Prop
  | nil : Trace ok s₀ [] [] s₀
  | snoc {i o : List μ} {s t : σ} {a : α} : Trace ok s₀ i o s → ok s a → P.step s a = some t →
      Trace ok s₀ (i ++ P.recvs a) (o ++ P.sends s a) t

variable {P Q}

theorem link_inl {n n' : Net σ τ μ} {a : α} :
    (P.link Q).step n (.inl a) = some n' ↔
      ∃ s rest, P.step n.left a = some s ∧ n.toLeft = P.recvs a ++ rest ∧
        (P.hangup a → n.toLeft = [] ∧ Q.closed n.right) ∧
        n' = ⟨s, n.right, n.toRight ++ P.sends n.left a, rest⟩ := by
  simp only [link, Option.ite_none_right_eq_some, Option.map_eq_some_iff]
  constructor
  · rintro ⟨⟨⟨rest, hr⟩, hh⟩, s, hs, rfl⟩
    exact ⟨s, rest, hs, hr.symm, hh, by simp [← hr]⟩
  · rintro ⟨s, rest, hs, hr, hh, rfl⟩
    exact ⟨⟨⟨rest, hr.symm⟩, hh⟩, s, hs, by simp [hr]⟩

theorem link_inr {n n' : Net σ τ μ} {b : β} :
    (P.link Q).step n (.inr b) = some n' ↔
      ∃ t rest, Q.step n.right b = some t ∧ n.toRight = Q.recvs b ++ rest ∧
        (Q.hangup b → n.toRight = [] ∧ P.closed n.left) ∧
        n' = ⟨n.left, t, rest, n.toLeft ++ Q.sends n.right b⟩ := by
  simp only [link, Option.ite_none_right_eq_some, Option.map_eq_some_iff]
  constructor
  · rintro ⟨⟨⟨rest, hr⟩, hh⟩, t, ht, rfl⟩
    exact ⟨t, rest, ht, hr.symm, hh, by simp [← hr]⟩
  · rintro ⟨t, rest, ht, hr, hh, rfl⟩
    exact ⟨⟨⟨rest, hr.symm⟩, hh⟩, t, ht, by simp [hr]⟩

/-- An action of the left party that takes no message is enabled in the pair as
soon as it is enabled locally. -/
theorem link_inl_local {n : Net σ τ μ} {a : α} {s : σ} (hs : P.step n.left a = some s)
    (hr : P.recvs a = []) (hh : P.hangup a = false) :
    (P.link Q).step n (.inl a) = some ⟨s, n.right, n.toRight ++ P.sends n.left a, n.toLeft⟩ :=
  link_inl.mpr ⟨s, n.toLeft, hs, by simp [hr], by simp [hh], rfl⟩

theorem link_inr_local {n : Net σ τ μ} {b : β} {t : τ} (ht : Q.step n.right b = some t)
    (hr : Q.recvs b = []) (hh : Q.hangup b = false) :
    (P.link Q).step n (.inr b) = some ⟨n.left, t, n.toRight, n.toLeft ++ Q.sends n.right b⟩ :=
  link_inr.mpr ⟨t, n.toRight, ht, by simp [hr], by simp [hh], rfl⟩

omit [DecidableEq μ] in
/-- **Invariant rule** for one party with its history. -/
theorem Trace.invariant {ok : σ → α → Prop} {s₀ s : σ} {i o : List μ}
    {I : List μ → List μ → σ → Prop} (h : P.Trace ok s₀ i o s) (start : I [] [] s₀)
    (keep : ∀ i o s a t, I i o s → ok s a → P.step s a = some t →
      I (i ++ P.recvs a) (o ++ P.sends s a) t) : I i o s := by
  induction h with
  | nil => exact start
  | snoc _ hok hs ih => exact keep _ _ _ _ _ ih hok hs

omit [DecidableEq μ] in
/-- **Simulation.** Where every step of a party is one of a machine, or changes nothing of what
is seen of the party and its output, what is seen after a history is reached by the machine. -/
theorem Trace.simulates {τ' β' : Type*} {ok : σ → α → Prop} {s₀ s : σ} {i o : List μ}
    (h : P.Trace ok s₀ i o s) (N : Machine τ' β') (ok' : τ' → β' → Prop) (view : σ → List μ → τ')
    (I : σ → Prop) (start : I s₀)
    (keep : ∀ s a t, I s → ok s a → P.step s a = some t → I t)
    (sim : ∀ s a t out, I s → ok s a → P.step s a = some t →
      view t (out ++ P.sends s a) = view s out ∨
        ∃ b, ok' (view s out) b ∧ N.step (view s out) b = some (view t (out ++ P.sends s a))) :
    I s ∧ N.Reach ok' (view s₀ []) (view s o) := by
  refine h.invariant (I := fun _ o s => I s ∧ N.Reach ok' (view s₀ []) (view s o)) ⟨start, .refl⟩ ?_
  rintro i o s a t ⟨hI, hreach⟩ hok hs
  refine ⟨keep s a t hI hok hs, ?_⟩
  rcases sim s a t o hI hok hs with hsame | ⟨b, hb, hstep⟩
  · rwa [hsame]
  · exact hreach.tail hb hstep

omit [DecidableEq μ] in
/-- What is asked of the steps may depend on the messages that the history takes. -/
theorem Trace.weaken {ok ok' : σ → α → Prop} {s t : σ} {i o : List μ} (h : P.Trace ok s i o t)
    (himp : ∀ s a, ok s a → (∀ m ∈ P.recvs a, m ∈ i) → ok' s a) : P.Trace ok' s i o t := by
  induction h with
  | nil => exact .nil
  | snoc _ hok hs ih =>
    have hbefore := ih fun s a ha hin => himp s a ha fun m hm => List.mem_append_left _ (hin m hm)
    exact hbefore.snoc (himp _ _ hok fun m hm => List.mem_append_right _ hm) hs

omit [DecidableEq μ] in
/-- **Views.** The histories of a party that is a view of another one are the views of the
other one's histories. -/
theorem trace_view_iff {Q : Party τ α μ} {view : σ → τ} {ok : τ → α → Prop}
    (hstep : ∀ s a, (P.step s a).map view = Q.step (view s) a)
    (hrecvs : ∀ a, P.recvs a = Q.recvs a) (hsends : ∀ s a, P.sends s a = Q.sends (view s) a)
    {s₀ : σ} {i o : List μ} {t : τ} :
    Q.Trace ok (view s₀) i o t ↔
      ∃ s, P.Trace (fun s a => ok (view s) a) s₀ i o s ∧ view s = t := by
  constructor
  · intro h
    induction h with
    | nil => exact ⟨s₀, .nil, rfl⟩
    | snoc _ hok hs ih =>
      obtain ⟨s, htrace, rfl⟩ := ih
      obtain ⟨s', hs', rfl⟩ := Option.map_eq_some_iff.mp ((hstep s _).trans hs)
      rw [← hrecvs, ← hsends]
      exact ⟨s', htrace.snoc hok hs', rfl⟩
  · rintro ⟨s, h, rfl⟩
    induction h with
    | nil => exact .nil
    | snoc _ hok hs ih =>
      rw [hrecvs, hsends]
      exact ih.snoc hok ((hstep _ _).symm.trans (congrArg (Option.map view) hs))

omit [DecidableEq μ] in
theorem Trace.head {ok : σ → α → Prop} {s u t : σ} {a : α} {i o : List μ} (ha : ok s a)
    (hs : P.step s a = some u) (h : P.Trace ok u i o t) :
    P.Trace ok s (P.recvs a ++ i) (P.sends s a ++ o) t := by
  induction h with
  | nil => simpa using Trace.nil.snoc ha hs
  | snoc _ hok hstep ih =>
    rw [← List.append_assoc, ← List.append_assoc]
    exact ih.snoc hok hstep

omit [DecidableEq μ] in
theorem Trace.trans {ok : σ → α → Prop} {s u t : σ} {i o i' o' : List μ} (h : P.Trace ok s i o u)
    (h' : P.Trace ok u i' o' t) : P.Trace ok s (i ++ i') (o ++ o') t := by
  induction h' with
  | nil => simpa using h
  | snoc _ hok hs ih =>
    rw [← List.append_assoc, ← List.append_assoc]
    exact ih.snoc hok hs

omit [DecidableEq μ] in
/-- A list of actions that runs through is a history. -/
theorem trace_of_run {ok : σ → α → Prop} {s t : σ} {as : List α} (hok : ∀ s, ∀ a ∈ as, ok s a)
    (h : P.run s as = some t) : ∃ o, P.Trace ok s (as.flatMap P.recvs) o t := by
  induction as generalizing s with
  | nil =>
    obtain rfl := Option.some.inj h
    exact ⟨[], .nil⟩
  | cons a as ih =>
    obtain ⟨u, hu, hr⟩ := Option.bind_eq_some_iff.mp h
    obtain ⟨o, ho⟩ := ih (fun s a ha => hok s a (List.mem_cons_of_mem _ ha)) hr
    exact ⟨_, ho.head (hok s a List.mem_cons_self) hu⟩

/-- **Composition.** A reachable state of the pair comes from one history of each
party, and what one has put is what the other has taken and what is in flight. -/
theorem link_traces {ok : Net σ τ μ → α ⊕ β → Prop} (okL : σ → α → Prop) (okR : τ → β → Prop)
    (hL : ∀ n a, ok n (.inl a) → okL n.left a) (hR : ∀ n b, ok n (.inr b) → okR n.right b)
    {s₀ : σ} {t₀ : τ} {n : Net σ τ μ}
    (h : (P.link Q).Reach ok ⟨s₀, t₀, [], []⟩ n) :
    ∃ iL oL iR oR, P.Trace okL s₀ iL oL n.left ∧ Q.Trace okR t₀ iR oR n.right ∧
      oL = iR ++ n.toRight ∧ oR = iL ++ n.toLeft := by
  induction h with
  | refl => exact ⟨[], [], [], [], .nil, .nil, rfl, rfl⟩
  | @tail n n' a _ hok hstep ih =>
    obtain ⟨iL, oL, iR, oR, hl, hr, hout, hin⟩ := ih
    cases a with
    | inl a =>
      obtain ⟨s, rest, hs, hq, _, rfl⟩ := link_inl.mp hstep
      exact ⟨_, _, _, _, hl.snoc (hL _ _ hok) hs, hr, by simp [hout], by simp [hin, hq]⟩
    | inr b =>
      obtain ⟨t, rest, hs, hq, _, rfl⟩ := link_inr.mp hstep
      exact ⟨_, _, _, _, hl, hr.snoc (hR _ _ hok) hs, by simp [hout, hq], by simp [hin]⟩

/-- A history of the left party is a run of the pair, if what it takes is in flight. -/
theorem reach_of_trace_left (ok : Net σ τ μ → α ⊕ β → Prop) {okL : σ → α → Prop}
    (hok : ∀ n a, okL n.left a → ok n (.inl a)) (hlive : ∀ s a, okL s a → P.hangup a = false)
    {s s' : σ} {i o : List μ} (h : P.Trace okL s i o s') (t : τ) (out rest : List μ) :
    (P.link Q).Reach ok ⟨s, t, out, i ++ rest⟩ ⟨s', t, out ++ o, rest⟩ := by
  induction h generalizing rest with
  | nil =>
    rw [List.append_nil]
    exact .refl
  | @snoc i o u v a _ ha hs ih =>
    rw [List.append_assoc, ← List.append_assoc out]
    refine (ih (P.recvs a ++ rest)).tail (hok ⟨u, t, _, _⟩ a ha) ?_
    exact link_inl.mpr ⟨v, rest, hs, rfl, by simp [hlive u a ha], rfl⟩

theorem reach_of_trace_right (ok : Net σ τ μ → α ⊕ β → Prop) {okR : τ → β → Prop}
    (hok : ∀ n b, okR n.right b → ok n (.inr b)) (hlive : ∀ t b, okR t b → Q.hangup b = false)
    {t t' : τ} {i o : List μ} (h : Q.Trace okR t i o t') (s : σ) (inn rest : List μ) :
    (P.link Q).Reach ok ⟨s, t, i ++ rest, inn⟩ ⟨s, t', rest, inn ++ o⟩ := by
  induction h generalizing rest with
  | nil =>
    rw [List.append_nil]
    exact .refl
  | @snoc i o u v b _ hb hs ih =>
    rw [List.append_assoc, ← List.append_assoc inn]
    refine (ih (Q.recvs b ++ rest)).tail (hok ⟨s, u, _, _⟩ b hb) ?_
    exact link_inr.mpr ⟨v, rest, hs, rfl, by simp [hlive u b hb], rfl⟩

/-- The two sides of a pair have histories with the given properties, and what one
has put is what the other has taken and what is in flight. -/
def Linked (I : List μ → List μ → σ → Prop) (J : List μ → List μ → τ → Prop)
    (n : Net σ τ μ) : Prop :=
  ∃ iL oL iR oR, I iL oL n.left ∧ J iR oR n.right ∧ oL = iR ++ n.toRight ∧ oR = iL ++ n.toLeft

omit [DecidableEq μ] in
theorem Linked.start {I : List μ → List μ → σ → Prop} {J : List μ → List μ → τ → Prop}
    {s : σ} {t : τ} (hI : I [] [] s) (hJ : J [] [] t) : Linked I J ⟨s, t, [], []⟩ :=
  ⟨[], [], [], [], hI, hJ, rfl, rfl⟩

/-- **Joint invariant rule.** To keep the property of its own history a party may use
what is known of the other one, in particular when it observes the end. -/
theorem Linked.step {I : List μ → List μ → σ → Prop} {J : List μ → List μ → τ → Prop}
    {n n' : Net σ τ μ} {a : α ⊕ β} (h : Linked I J n) (hs : (P.link Q).step n a = some n')
    (keepL : ∀ iL oL iR oR a' s, a = .inl a' → I iL oL n.left → J iR oR n.right →
      oL = iR ++ n.toRight → oR = iL ++ n.toLeft →
      (P.hangup a' → n.toLeft = [] ∧ Q.closed n.right) → P.step n.left a' = some s →
      I (iL ++ P.recvs a') (oL ++ P.sends n.left a') s)
    (keepR : ∀ iL oL iR oR b t, a = .inr b → I iL oL n.left → J iR oR n.right →
      oL = iR ++ n.toRight → oR = iL ++ n.toLeft →
      (Q.hangup b → n.toRight = [] ∧ P.closed n.left) → Q.step n.right b = some t →
      J (iR ++ Q.recvs b) (oR ++ Q.sends n.right b) t) : Linked I J n' := by
  obtain ⟨iL, oL, iR, oR, hl, hr, hout, hin⟩ := h
  cases a with
  | inl a =>
    obtain ⟨s, rest, hstep, hq, hh, rfl⟩ := link_inl.mp hs
    refine ⟨_, _, _, _, keepL iL oL iR oR a s rfl hl hr hout hin hh hstep, hr, ?_, ?_⟩
    · simp [hout]
    · simp [hin, hq]
  | inr b =>
    obtain ⟨t, rest, hstep, hq, hh, rfl⟩ := link_inr.mp hs
    refine ⟨_, _, _, _, hl, keepR iL oL iR oR b t rfl hl hr hout hin hh hstep, ?_, ?_⟩
    · simp [hout, hq]
    · simp [hin]

variable (P Q) in
/-- The runs of a pair, with what each side has put on the link. -/
inductive LinkRun (ok : Net σ τ μ → α ⊕ β → Prop) (s₀ : σ) (t₀ : τ) :
    List μ → List μ → Net σ τ μ → Prop
  | nil : LinkRun ok s₀ t₀ [] [] ⟨s₀, t₀, [], []⟩
  | left {oL oR : List μ} {n n' : Net σ τ μ} {a : α} : LinkRun ok s₀ t₀ oL oR n →
      ok n (.inl a) → (P.link Q).step n (.inl a) = some n' →
      LinkRun ok s₀ t₀ (oL ++ P.sends n.left a) oR n'
  | right {oL oR : List μ} {n n' : Net σ τ μ} {b : β} : LinkRun ok s₀ t₀ oL oR n →
      ok n (.inr b) → (P.link Q).step n (.inr b) = some n' →
      LinkRun ok s₀ t₀ oL (oR ++ Q.sends n.right b) n'

theorem LinkRun.snoc {ok : Net σ τ μ → α ⊕ β → Prop} {s₀ : σ} {t₀ : τ} {n n' : Net σ τ μ}
    {a : α ⊕ β} (h : ∃ oL oR, LinkRun P Q ok s₀ t₀ oL oR n) (hok : ok n a)
    (hs : (P.link Q).step n a = some n') : ∃ oL oR, LinkRun P Q ok s₀ t₀ oL oR n' := by
  obtain ⟨oL, oR, h⟩ := h
  cases a with
  | inl a => exact ⟨_, _, h.left hok hs⟩
  | inr b => exact ⟨_, _, h.right hok hs⟩

theorem LinkRun.exists_of_reach {ok : Net σ τ μ → α ⊕ β → Prop} {s₀ : σ} {t₀ : τ}
    {n : Net σ τ μ} (h : (P.link Q).Reach ok ⟨s₀, t₀, [], []⟩ n) :
    ∃ oL oR, LinkRun P Q ok s₀ t₀ oL oR n :=
  h.invariant (I := fun n => ∃ oL oR, LinkRun P Q ok s₀ t₀ oL oR n) ⟨[], [], .nil⟩
    fun _ _ _ hn hok hs => LinkRun.snoc hn hok hs

/-- **Joint invariant rule** for runs: each side keeps the property of its history, and may
use what is known of the other one. -/
theorem LinkRun.linked {ok : Net σ τ μ → α ⊕ β → Prop} {s₀ : σ} {t₀ : τ} {oL oR : List μ}
    {n : Net σ τ μ} {I : List μ → List μ → σ → Prop} {J : List μ → List μ → τ → Prop}
    (h : LinkRun P Q ok s₀ t₀ oL oR n) (startL : I [] [] s₀) (startR : J [] [] t₀)
    (keepL : ∀ iL oL iR oR n a s, I iL oL n.left → J iR oR n.right → oL = iR ++ n.toRight →
      oR = iL ++ n.toLeft → ok n (.inl a) → P.recvs a <+: n.toLeft →
      (P.hangup a → n.toLeft = [] ∧ Q.closed n.right) → P.step n.left a = some s →
      I (iL ++ P.recvs a) (oL ++ P.sends n.left a) s)
    (keepR : ∀ iL oL iR oR n b t, I iL oL n.left → J iR oR n.right → oL = iR ++ n.toRight →
      oR = iL ++ n.toLeft → ok n (.inr b) → Q.recvs b <+: n.toRight →
      (Q.hangup b → n.toRight = [] ∧ P.closed n.left) → Q.step n.right b = some t →
      J (iR ++ Q.recvs b) (oR ++ Q.sends n.right b) t) :
    ∃ iL iR, I iL oL n.left ∧ J iR oR n.right ∧ oL = iR ++ n.toRight ∧ oR = iL ++ n.toLeft := by
  induction h with
  | nil => exact ⟨[], [], startL, startR, rfl, rfl⟩
  | left _ hok hs ih =>
    obtain ⟨iL, iR, hl, hr, hout, hin⟩ := ih
    obtain ⟨s, rest, hstep, hq, hh, rfl⟩ := link_inl.mp hs
    refine ⟨_, iR, keepL iL _ iR _ _ _ s hl hr hout hin hok ⟨rest, hq.symm⟩ hh hstep, hr, ?_, ?_⟩
    · rw [hout, List.append_assoc]
    · rw [hin, hq, List.append_assoc]
  | right _ hok hs ih =>
    obtain ⟨iL, iR, hl, hr, hout, hin⟩ := ih
    obtain ⟨t, rest, hstep, hq, hh, rfl⟩ := link_inr.mp hs
    refine ⟨iL, _, hl, keepR iL _ iR _ _ _ t hl hr hout hin hok ⟨rest, hq.symm⟩ hh hstep, ?_, ?_⟩
    · rw [hout, hq, List.append_assoc]
    · rw [hin, List.append_assoc]

variable (P) in
/-- The party takes whatever message comes next, or observes the end. -/
structure Waiting (ok : α → Prop) (s : σ) : Prop where
  takes : ∀ m, ∃ a t, ok a ∧ P.recvs a = [m] ∧ P.hangup a = false ∧ P.step s a = some t
  hangs : ∃ a t, ok a ∧ P.recvs a = [] ∧ P.step s a = some t

variable (P) in
/-- A party that is not through can move on its own or waits for a message. -/
inductive Stands (ok : α → Prop) (s : σ) : Prop
  | moves (a : α) (t : σ) : ok a → P.recvs a = [] → P.hangup a = false → P.step s a = some t →
      Stands ok s
  | waits : P.Waiting ok s → Stands ok s
  | closed : P.closed s = true → Stands ok s

/-- Each side may take the actions that its own condition permits. -/
def eachOk (okL : α → Prop) (okR : β → Prop) : Net σ τ μ → α ⊕ β → Prop
  | _, .inl a => okL a
  | _, .inr b => okR b

section Stuck

variable {okL : α → Prop} {okR : β → Prop} {n : Net σ τ μ}
  (stuck : (P.link Q).Stuck (eachOk okL okR) n)
include stuck

/-- In a pair that cannot move the left party has no action of its own. -/
theorem stuck_left (a : α) (s : σ) (ho : okL a) (hr : P.recvs a = []) (hh : P.hangup a = false) :
    P.step n.left a ≠ some s := by
  intro hs
  have hnone := stuck (.inl a) ho
  rw [link_inl_local hs hr hh] at hnone
  cases hnone

theorem stuck_right (b : β) (t : τ) (ho : okR b) (hr : Q.recvs b = []) (hh : Q.hangup b = false) :
    Q.step n.right b ≠ some t := by
  intro ht
  have hnone := stuck (.inr b) ho
  rw [link_inr_local ht hr hh] at hnone
  cases hnone

/-- Nothing is in flight to a party that would take it. -/
theorem stuck_toLeft (takes : ∀ m, ∃ a s, okL a ∧ P.recvs a = [m] ∧ P.hangup a = false ∧
    P.step n.left a = some s) : n.toLeft = [] := by
  cases hq : n.toLeft with
  | nil => rfl
  | cons m ms =>
    obtain ⟨a, s, ho, hrec, hh, hs⟩ := takes m
    have hnone := stuck (.inl a) ho
    rw [link_inl.mpr ⟨s, ms, hs, by rw [hrec, hq, List.singleton_append], by simp [hh], rfl⟩] at hnone
    cases hnone

theorem stuck_toRight (takes : ∀ m, ∃ b t, okR b ∧ Q.recvs b = [m] ∧ Q.hangup b = false ∧
    Q.step n.right b = some t) : n.toRight = [] := by
  cases hq : n.toRight with
  | nil => rfl
  | cons m ms =>
    obtain ⟨b, t, ho, hrec, hh, ht⟩ := takes m
    have hnone := stuck (.inr b) ho
    rw [link_inr.mpr ⟨t, ms, ht, by rw [hrec, hq, List.singleton_append], by simp [hh], rfl⟩] at hnone
    cases hnone

end Stuck

/-- **Deadlock rule.** A pair that cannot move is through on both sides, or both
sides wait and nothing is in flight. -/
theorem stuck_cases {okL : α → Prop} {okR : β → Prop} {n : Net σ τ μ}
    (hl : P.Stands okL n.left) (hr : Q.Stands okR n.right)
    (stuck : (P.link Q).Stuck (eachOk okL okR) n) :
    (P.closed n.left ∧ Q.closed n.right) ∨
      (P.Waiting okL n.left ∧ Q.Waiting okR n.right ∧ n.toRight = [] ∧ n.toLeft = []) := by
  cases hl with
  | moves a s ho hrec hh hs => exact (stuck_left stuck a s ho hrec hh hs).elim
  | waits hw =>
    have hempty := stuck_toLeft stuck hw.takes
    cases hr with
    | moves b t ho hrec hh ht => exact (stuck_right stuck b t ho hrec hh ht).elim
    | waits hw' => exact .inr ⟨hw, hw', stuck_toRight stuck hw'.takes, hempty⟩
    | closed hc =>
      obtain ⟨a, s, ho, hrec, hs⟩ := hw.hangs
      have hnone := stuck (.inl a) ho
      rw [link_inl.mpr ⟨s, [], hs, by rw [hrec, hempty]; rfl, fun _ => ⟨hempty, hc⟩, rfl⟩] at hnone
      cases hnone
  | closed hc =>
    cases hr with
    | moves b t ho hrec hh ht => exact (stuck_right stuck b t ho hrec hh ht).elim
    | waits hw =>
      have hempty := stuck_toRight stuck hw.takes
      obtain ⟨b, t, ho, hrec, ht⟩ := hw.hangs
      have hnone := stuck (.inr b) ho
      rw [link_inr.mpr ⟨t, [], ht, by rw [hrec, hempty]; rfl, fun _ => ⟨hempty, hc⟩, rfl⟩] at hnone
      cases hnone
    | closed hc' => exact .inl ⟨hc, hc'⟩

/-- The rank of messages that each weigh `w`. -/
def weight (w : μ → Nat) (ms : List μ) : Nat := (ms.map w).sum

omit [DecidableEq μ] in
@[simp] theorem weight_nil (w : μ → Nat) : weight w [] = 0 := rfl

omit [DecidableEq μ] in
@[simp] theorem weight_cons (w : μ → Nat) (m : μ) (ms : List μ) :
    weight w (m :: ms) = w m + weight w ms := by simp [weight]

omit [DecidableEq μ] in
@[simp] theorem weight_append (w : μ → Nat) (ms ms' : List μ) :
    weight w (ms ++ ms') = weight w ms + weight w ms' := by simp [weight]

/-- The rank of a pair: the ranks of the parties and the weight in flight. -/
def linkRank (rL : σ → Nat) (rR : τ → Nat) (w : μ → Nat) (n : Net σ τ μ) : Nat :=
  rL n.left + rR n.right + weight w n.toRight + weight w n.toLeft

/-- If every permitted action of either party costs more than it puts on the link,
counting what it takes as income, then every step of the pair lowers the rank. -/
theorem linkRank_lower {rL : σ → Nat} {rR : τ → Nat} {w : μ → Nat} {okL : α → Prop}
    {okR : β → Prop} {n n' : Net σ τ μ} {a : α ⊕ β}
    (hL : ∀ a s, okL a → P.step n.left a = some s →
      rL s + weight w (P.sends n.left a) < rL n.left + weight w (P.recvs a))
    (hR : ∀ b t, okR b → Q.step n.right b = some t →
      rR t + weight w (Q.sends n.right b) < rR n.right + weight w (Q.recvs b))
    (ho : eachOk okL okR n a) (h : (P.link Q).step n a = some n') :
    linkRank rL rR w n' < linkRank rL rR w n := by
  cases a with
  | inl a =>
    obtain ⟨s, rest, hs, hq, _, rfl⟩ := link_inl.mp h
    have := hL a s ho hs
    simp only [linkRank, hq, weight_append]
    omega
  | inr b =>
    obtain ⟨t, rest, hs, hq, _, rfl⟩ := link_inr.mp h
    have := hR b t ho hs
    simp only [linkRank, hq, weight_append]
    omega

end Party

end Transition
