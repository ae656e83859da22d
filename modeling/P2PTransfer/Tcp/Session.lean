import P2PTransfer.Lib.Duplex
import P2PTransfer.Network.Frame

/-!
# The opening of a TCP transfer

All senders and receivers of the tagged protocol open a connection in the same way:
the key exchange, the metadata, and the reply that accepts or refuses them. After it
each runs a loop of its own. The opening is one definition over that loop, and a run
of a session ends well exactly when the run of the two loops does.

## Main definitions

- `Opening`, `Opening.party` — a sender: what it announces and how it goes on
- `Admission`, `Admission.party` — a receiver: how it answers and how it goes on
- `Session.start` — the two at the beginning of a connection
- `Session.Opened`, `Session.Past` — a session in its opening, and after it
-/

namespace P2PTransfer

open Transition Party

variable {C : Primitives} {σ τ α β : Type}

inductive OpenError where
  | io (detail : Text)
  | expectedServerHello
  | invalidKey
  | rejected
deriving DecidableEq

inductive AdmitError where
  | io (detail : Text)
  | expectedClientHello
  | invalidKey
  | expectedMetadata
  | invalidMetadata
  | rejected
deriving DecidableEq

/-- What is particular to a sender: the state of its loop after a reply, if it takes
the reply for an acceptance. -/
structure Opening (C : Primitives) (σ : Type) where
  secret : C.Secret
  metadata : TransferMetadata C
  start : C.Key → Frame C → Option σ

inductive OpenPhase (C : Primitives) (σ : Type) where
  | hello
  | awaitHello
  | metadata (key : C.Key)
  | awaitReply (key : C.Key)
  | running (s : σ)
  | failed (e : OpenError)

/-- The state of the loop, once it runs. -/
def OpenPhase.loop {C : Primitives} {σ : Type} : OpenPhase C σ → Option σ
  | .running s => some s
  | _ => none

theorem OpenPhase.loop_eq_some {C : Primitives} {σ : Type} {p : OpenPhase C σ} {s : σ} :
    p.loop = some s ↔ p = .running s := by
  cases p <;> simp [OpenPhase.loop]

inductive OpenAct (C : Primitives) (α : Type) where
  | hello
  | serverHello (f : Frame C)
  | metadata
  | reply (f : Frame C)
  | hangup
  | ioError (detail : Text)
  | body (a : α)

namespace Opening

def hear (O : Opening C σ) (f : Frame C) : OpenPhase C σ :=
  match f.payload with
  | .key k =>
    if f.tag = tagServerHello then .metadata (C.deriveKey O.secret k)
    else .failed .expectedServerHello
  | _ => .failed (if f.tag = tagServerHello then .invalidKey else .expectedServerHello)

def answered (O : Opening C σ) (key : C.Key) (f : Frame C) : OpenPhase C σ :=
  match O.start key f with
  | some s => .running s
  | none => .failed .rejected

def step (O : Opening C σ) (P : Party σ α (Frame C)) :
    OpenPhase C σ → OpenAct C α → Option (OpenPhase C σ)
  | .hello, .hello => some .awaitHello
  | .awaitHello, .serverHello f => some (O.hear f)
  | .metadata key, .metadata => some (.awaitReply key)
  | .awaitReply key, .reply f => some (O.answered key f)
  | .awaitHello, .hangup | .awaitReply _, .hangup =>
    some (.failed (.io "Failed to read message length".toList))
  | .hello, .ioError detail | .awaitHello, .ioError detail | .metadata _, .ioError detail
  | .awaitReply _, .ioError detail => some (.failed (.io detail))
  | .running s, .body a => (P.step s a).map .running
  | _, _ => none

/-- A sender that goes on as the party `P` after the opening. -/
def party (O : Opening C σ) (P : Party σ α (Frame C)) :
    Party (OpenPhase C σ) (OpenAct C α) (Frame C) where
  step := O.step P
  recvs
    | .serverHello f | .reply f => [f]
    | .body a => P.recvs a
    | _ => []
  sends
    | .running s, .body a => P.sends s a
    | _, .hello => [⟨tagClientHello, .key (C.publicKey O.secret)⟩]
    | _, .metadata => [⟨tagMetadata, .metadata O.metadata⟩]
    | _, _ => []
  hangup
    | .hangup => true
    | .body a => P.hangup a
    | _ => false
  closed
    | .failed _ => true
    | .running s => P.closed s
    | _ => false

end Opening

/-- What is particular to a receiver. A complaint is what it sends about an unexpected
frame. -/
structure Admission (C : Primitives) (τ : Type) where
  secret : C.Secret
  asks : Bool
  reply : TransferMetadata C → Frame C
  start : C.Key → TransferMetadata C → τ
  complaint : Frame C → Text → List (Frame C)

inductive AdmitPhase (C : Primitives) (τ : Type) where
  | awaitHello
  | hello (key : C.Key)
  | awaitMetadata (key : C.Key)
  | asking (key : C.Key) (m : TransferMetadata C)
  | replying (key : C.Key) (m : TransferMetadata C)
  | running (s : τ)
  | failed (e : AdmitError)

/-- The state of the loop, once it runs. -/
def AdmitPhase.loop {C : Primitives} {τ : Type} : AdmitPhase C τ → Option τ
  | .running s => some s
  | _ => none

theorem AdmitPhase.loop_eq_some {C : Primitives} {τ : Type} {p : AdmitPhase C τ} {s : τ} :
    p.loop = some s ↔ p = .running s := by
  cases p <;> simp [AdmitPhase.loop]

inductive AdmitAct (C : Primitives) (β : Type) where
  | clientHello (f : Frame C)
  | hello
  | metadata (f : Frame C)
  | answer (accepted : Bool)
  | reply
  | hangup
  | ioError (detail : Text)
  | body (b : β)

namespace Admission

def hear (A : Admission C τ) (f : Frame C) : AdmitPhase C τ :=
  match f.payload with
  | .key k =>
    if f.tag = tagClientHello then .hello (C.deriveKey A.secret k)
    else .failed .expectedClientHello
  | _ => .failed (if f.tag = tagClientHello then .invalidKey else .expectedClientHello)

def announced (A : Admission C τ) (key : C.Key) (f : Frame C) : AdmitPhase C τ :=
  match f.payload with
  | .metadata m =>
    if f.tag = tagMetadata then if A.asks then .asking key m else .replying key m
    else .failed .expectedMetadata
  | _ => .failed (if f.tag = tagMetadata then .invalidMetadata else .expectedMetadata)

def step (A : Admission C τ) (Q : Party τ β (Frame C)) :
    AdmitPhase C τ → AdmitAct C β → Option (AdmitPhase C τ)
  | .awaitHello, .clientHello f => some (A.hear f)
  | .hello key, .hello => some (.awaitMetadata key)
  | .awaitMetadata key, .metadata f => some (A.announced key f)
  | .asking key m, .answer accepted => some (if accepted then .replying key m else .failed .rejected)
  | .replying key m, .reply => some (.running (A.start key m))
  | .awaitHello, .hangup | .awaitMetadata _, .hangup =>
    some (.failed (.io "Failed to read message length".toList))
  | .awaitHello, .ioError detail | .hello _, .ioError detail | .awaitMetadata _, .ioError detail
  | .replying _ _, .ioError detail => some (.failed (.io detail))
  | .running s, .body b => (Q.step s b).map .running
  | _, _ => none

/-- A receiver that goes on as the party `Q` after the opening. -/
def party (A : Admission C τ) (Q : Party τ β (Frame C)) :
    Party (AdmitPhase C τ) (AdmitAct C β) (Frame C) where
  step := A.step Q
  recvs
    | .clientHello f | .metadata f => [f]
    | .body b => Q.recvs b
    | _ => []
  sends
    | .running s, .body b => Q.sends s b
    | _, .hello => [⟨tagServerHello, .key (C.publicKey A.secret)⟩]
    | .replying _ m, .reply => [A.reply m]
    | _, .clientHello f =>
      if f.tag = tagClientHello then [] else A.complaint f "Expected CLIENT_HELLO".toList
    | _, .metadata f =>
      if f.tag = tagMetadata then [] else A.complaint f "Expected METADATA".toList
    | _, _ => []
  hangup
    | .hangup => true
    | .body b => Q.hangup b
    | _ => false
  closed
    | .failed _ => true
    | .running s => Q.closed s
    | _ => false

end Admission

namespace Opening

/-- The two messages of a sender before its loop. -/
def hello (O : Opening C σ) : Frame C := ⟨tagClientHello, .key (C.publicKey O.secret)⟩

def offer (O : Opening C σ) : Frame C := ⟨tagMetadata, .metadata O.metadata⟩

/-- What a sender has taken and put. The history of its loop follows that of the
opening. -/
def History (O : Opening C σ) (P : Party σ α (Frame C)) (ok : σ → α → Prop)
    (i o : List (Frame C)) : OpenPhase C σ → Prop
  | .hello => i = [] ∧ o = []
  | .awaitHello => i = [] ∧ o = [O.hello]
  | .metadata key => ∃ k, key = C.deriveKey O.secret k ∧ i = [⟨tagServerHello, .key k⟩] ∧
      o = [O.hello]
  | .awaitReply key => ∃ k, key = C.deriveKey O.secret k ∧ i = [⟨tagServerHello, .key k⟩] ∧
      o = [O.hello, O.offer]
  | .running s => ∃ k f s₀ i' o', O.start (C.deriveKey O.secret k) f = some s₀ ∧
      P.Trace ok s₀ i' o' s ∧ i = ⟨tagServerHello, .key k⟩ :: f :: i' ∧
      o = O.hello :: O.offer :: o'
  | .failed _ => o <+: [O.hello, O.offer]

theorem hear_cases (O : Opening C σ) (f : Frame C) :
    (∃ k, f = ⟨tagServerHello, .key k⟩ ∧ O.hear f = .metadata (C.deriveKey O.secret k)) ∨
      ∃ e, O.hear f = .failed e := by
  obtain ⟨tag, payload⟩ := f
  unfold hear
  cases payload with
  | key k =>
    by_cases h : tag = tagServerHello
    · exact .inl ⟨k, by rw [h], by simp [h]⟩
    · exact .inr ⟨_, by simp [h]; rfl⟩
  | _ => exact .inr ⟨_, rfl⟩

theorem trace_history {O : Opening C σ} {P : Party σ α (Frame C)}
    {ok : OpenPhase C σ → OpenAct C α → Prop} (ok' : σ → α → Prop)
    (hok : ∀ s a, ok (.running s) (.body a) → ok' s a) {i o : List (Frame C)} {p : OpenPhase C σ}
    (h : (O.party P).Trace ok .hello i o p) : O.History P ok' i o p := by
  refine h.invariant (I := fun i o p => O.History P ok' i o p) ⟨rfl, rfl⟩ ?_
  intro i o p a q hp ha hs
  cases p with
  | hello =>
    obtain ⟨rfl, rfl⟩ := hp
    cases a <;> cases hs
    · exact ⟨rfl, rfl⟩
    · exact List.nil_prefix
  | awaitHello =>
    obtain ⟨rfl, rfl⟩ := hp
    cases a <;> cases hs
    · rename_i f
      rcases O.hear_cases f with ⟨k, rfl, hk⟩ | ⟨e, he⟩
      · exact hk ▸ ⟨k, rfl, rfl, rfl⟩
      · exact he ▸ ⟨[O.offer], rfl⟩
    · exact ⟨[O.offer], rfl⟩
    · exact ⟨[O.offer], rfl⟩
  | metadata key =>
    obtain ⟨k, rfl, rfl, rfl⟩ := hp
    cases a <;> cases hs
    · exact ⟨k, rfl, rfl, rfl⟩
    · exact ⟨[O.offer], rfl⟩
  | awaitReply key =>
    obtain ⟨k, rfl, rfl, rfl⟩ := hp
    cases a <;> cases hs
    · rename_i f
      unfold answered
      cases hst : O.start (C.deriveKey O.secret k) f with
      | none => exact ⟨[], rfl⟩
      | some s => exact ⟨k, f, s, [], [], hst, .nil, rfl, rfl⟩
    · exact ⟨[], rfl⟩
    · exact ⟨[], rfl⟩
  | running s =>
    obtain ⟨k, f, s₀, i', o', hst, htr, rfl, rfl⟩ := hp
    cases a <;> simp only [party, step, reduceCtorEq, Option.map_eq_some_iff] at hs
    obtain ⟨t, ht, rfl⟩ := hs
    exact ⟨k, f, s₀, _, _, hst, htr.snoc (hok _ _ ha) ht, rfl, rfl⟩
  | failed e => cases a <;> cases hs

end Opening

namespace Admission

def hello (A : Admission C τ) : Frame C := ⟨tagServerHello, .key (C.publicKey A.secret)⟩

/-- What a receiver has taken and put. -/
def History (A : Admission C τ) (Q : Party τ β (Frame C)) (ok : τ → β → Prop)
    (i o : List (Frame C)) : AdmitPhase C τ → Prop
  | .awaitHello => i = [] ∧ o = []
  | .hello key => ∃ k, key = C.deriveKey A.secret k ∧ i = [⟨tagClientHello, .key k⟩] ∧ o = []
  | .awaitMetadata key => ∃ k, key = C.deriveKey A.secret k ∧ i = [⟨tagClientHello, .key k⟩] ∧
      o = [A.hello]
  | .asking key m | .replying key m => ∃ k, key = C.deriveKey A.secret k ∧
      i = [⟨tagClientHello, .key k⟩, ⟨tagMetadata, .metadata m⟩] ∧ o = [A.hello]
  | .running t => ∃ k m i' o', Q.Trace ok (A.start (C.deriveKey A.secret k) m) i' o' t ∧
      i = ⟨tagClientHello, .key k⟩ :: ⟨tagMetadata, .metadata m⟩ :: i' ∧
      o = A.hello :: A.reply m :: o'
  | .failed _ => ∀ g ∈ o, g = A.hello ∨ ∃ f e, g ∈ A.complaint f e

theorem hear_cases (A : Admission C τ) (f : Frame C) :
    (∃ k, f = ⟨tagClientHello, .key k⟩ ∧ A.hear f = .hello (C.deriveKey A.secret k)) ∨
      ∃ e, A.hear f = .failed e := by
  obtain ⟨tag, payload⟩ := f
  unfold hear
  cases payload with
  | key k =>
    by_cases h : tag = tagClientHello
    · exact .inl ⟨k, by rw [h], by simp [h]⟩
    · exact .inr ⟨_, by simp [h]; rfl⟩
  | _ => exact .inr ⟨_, rfl⟩

theorem announced_cases (A : Admission C τ) (key : C.Key) (f : Frame C) :
    (∃ m, f = ⟨tagMetadata, .metadata m⟩ ∧
      A.announced key f = if A.asks then .asking key m else .replying key m) ∨
      ∃ e, A.announced key f = .failed e := by
  obtain ⟨tag, payload⟩ := f
  unfold announced
  cases payload with
  | metadata m =>
    by_cases h : tag = tagMetadata
    · exact .inl ⟨m, by rw [h], by simp [h]⟩
    · exact .inr ⟨_, by simp [h]; rfl⟩
  | _ => exact .inr ⟨_, rfl⟩

theorem complained {A : Admission C τ} {f : Frame C} {c : Prop} [Decidable c] {e : Text}
    {g : Frame C} (h : g ∈ if c then [] else A.complaint f e) : ∃ f e, g ∈ A.complaint f e := by
  split at h
  · simp at h
  · exact ⟨f, e, h⟩

theorem trace_history {A : Admission C τ} {Q : Party τ β (Frame C)}
    {ok : AdmitPhase C τ → AdmitAct C β → Prop} (ok' : τ → β → Prop)
    (hok : ∀ t b, ok (.running t) (.body b) → ok' t b) {i o : List (Frame C)} {p : AdmitPhase C τ}
    (h : (A.party Q).Trace ok .awaitHello i o p) : A.History Q ok' i o p := by
  refine h.invariant (I := fun i o p => A.History Q ok' i o p) ⟨rfl, rfl⟩ ?_
  intro i o p b q hp hb hs
  cases p with
  | awaitHello =>
    obtain ⟨rfl, rfl⟩ := hp
    cases b <;> cases hs
    · rename_i f
      rcases A.hear_cases f with ⟨k, rfl, hk⟩ | ⟨e, he⟩
      · exact hk ▸ ⟨k, rfl, rfl, rfl⟩
      · exact he ▸ fun g hg => .inr (complained hg)
    · exact fun g hg => absurd hg List.not_mem_nil
    · exact fun g hg => absurd hg List.not_mem_nil
  | hello key =>
    obtain ⟨k, rfl, rfl, rfl⟩ := hp
    cases b <;> cases hs
    · exact ⟨k, rfl, rfl, rfl⟩
    · exact fun g hg => absurd hg List.not_mem_nil
  | awaitMetadata key =>
    obtain ⟨k, rfl, rfl, rfl⟩ := hp
    cases b <;> cases hs
    · rename_i f
      rcases A.announced_cases (C.deriveKey A.secret k) f with ⟨m, rfl, hm⟩ | ⟨e, he⟩
      · rw [hm]
        split <;> exact ⟨k, rfl, rfl, rfl⟩
      · rw [he]
        intro g hg
        rcases List.mem_append.mp hg with hg | hg
        · exact .inl (List.mem_singleton.mp hg)
        · exact .inr (complained hg)
    · exact fun g hg => .inl (List.mem_singleton.mp hg)
    · exact fun g hg => .inl (List.mem_singleton.mp hg)
  | asking key m =>
    obtain ⟨k, rfl, rfl, rfl⟩ := hp
    cases b <;> cases hs
    rename_i accepted
    cases accepted
    · exact fun g hg => .inl (List.mem_singleton.mp hg)
    · exact ⟨k, rfl, rfl, rfl⟩
  | replying key m =>
    obtain ⟨k, rfl, rfl, rfl⟩ := hp
    cases b <;> cases hs
    · exact ⟨k, m, [], [], .nil, rfl, rfl⟩
    · exact fun g hg => .inl (List.mem_singleton.mp hg)
  | running t =>
    obtain ⟨k, m, i', o', htr, rfl, rfl⟩ := hp
    cases b <;> simp only [party, step, reduceCtorEq, Option.map_eq_some_iff] at hs
    obtain ⟨u, hu, rfl⟩ := hs
    exact ⟨k, m, _, _, htr.snoc (hok _ _ hb) hu, rfl, rfl⟩
  | failed e => cases b <;> cases hs

/-- Where a receiver can be once its user has accepted. -/
def Replied (A : Admission C τ) (Q : Party τ β (Frame C)) (ok : τ → β → Prop) (key : C.Key)
    (m : TransferMetadata C) : AdmitPhase C τ → Prop
  | .replying key' m' => key' = key ∧ m' = m
  | .running t => Q.Reach ok (A.start key m) t
  | .failed _ => True
  | _ => False

theorem reach_replied {A : Admission C τ} {Q : Party τ β (Frame C)}
    {ok : AdmitPhase C τ → AdmitAct C β → Prop} (ok' : τ → β → Prop)
    (hok : ∀ t b, ok (.running t) (.body b) → ok' t b) {key : C.Key} {m : TransferMetadata C}
    {p : AdmitPhase C τ} (h : (A.party Q).Reach ok (.replying key m) p) :
    A.Replied Q ok' key m p := by
  refine h.invariant (I := A.Replied Q ok' key m) ⟨rfl, rfl⟩ ?_
  intro p b q hp hb hs
  cases p with
  | replying key' m' =>
    obtain ⟨rfl, rfl⟩ := hp
    cases b <;> cases hs
    · exact .refl
    · trivial
  | running t =>
    cases b <;> simp only [party, step, reduceCtorEq, Option.map_eq_some_iff] at hs
    obtain ⟨u, hu, rfl⟩ := hs
    exact Machine.Reach.tail hp (hok _ _ hb) hu
  | failed e => cases b <;> cases hs
  | _ => cases hp

end Admission

/-- The actions of an opening without faults, with a loop that keeps to `ok`. -/
def OpenAct.ok (ok : α → Prop) : OpenAct C α → Prop
  | .ioError _ => False
  | .body a => ok a
  | _ => True

/-- The same for a receiver whose user accepts. -/
def AdmitAct.ok (ok : β → Prop) : AdmitAct C β → Prop
  | .ioError _ => False
  | .answer accepted => accepted
  | .body b => ok b
  | _ => True

namespace Session

def start (C : Primitives) (σ τ : Type) : Net (OpenPhase C σ) (AdmitPhase C τ) (Frame C) :=
  ⟨.hello, .awaitHello, [], []⟩

/-- Both loops are running. -/
def lift (n : Net σ τ (Frame C)) : Net (OpenPhase C σ) (AdmitPhase C τ) (Frame C) :=
  ⟨.running n.left, .running n.right, n.toRight, n.toLeft⟩

/-- Both loops are running, and the pair of them has the property. -/
def Running (B : Net σ τ (Frame C) → Prop) (n : Net (OpenPhase C σ) (AdmitPhase C τ) (Frame C)) :
    Prop :=
  ∃ b, n = lift b ∧ B b

variable {O : Opening C σ} {A : Admission C τ} {P : Party σ α (Frame C)} {Q : Party τ β (Frame C)}
  {okP : α → Prop} {okQ : β → Prop} {B : Net σ τ (Frame C) → Prop}

theorem lift_injective : Function.Injective (lift : Net σ τ (Frame C) → _) := by
  rintro ⟨s, t, out, inn⟩ ⟨s', t', out', inn'⟩ h
  simpa [lift] using h

/-- The steps of a running session are the steps of its loops. -/
theorem step_lift (okP : α → Prop) (okQ : β → Prop) {n : Net σ τ (Frame C)} {a : OpenAct C α ⊕ AdmitAct C β} {m}
    (h : ((O.party P).link (A.party Q)).step (lift n) a = some m) :
    ∃ (b : α ⊕ β) (n' : Net σ τ (Frame C)), m = lift n' ∧ (P.link Q).step n b = some n' ∧
      (eachOk (OpenAct.ok okP) (AdmitAct.ok okQ) (lift n) a → eachOk okP okQ n b) := by
  cases a with
  | inl a =>
    obtain ⟨s, rest, hs, hq, hh, rfl⟩ := Party.link_inl.mp h
    cases a with
    | body a =>
      obtain ⟨s', hs', rfl⟩ := Option.map_eq_some_iff.mp hs
      exact ⟨.inl a, _, rfl, Party.link_inl.mpr ⟨s', rest, hs', hq, hh, rfl⟩, id⟩
    | _ => cases hs
  | inr b =>
    obtain ⟨t, rest, ht, hq, hh, rfl⟩ := Party.link_inr.mp h
    cases b with
    | body b =>
      obtain ⟨t', ht', rfl⟩ := Option.map_eq_some_iff.mp ht
      exact ⟨.inr b, _, rfl, Party.link_inr.mpr ⟨t', rest, ht', hq, hh, rfl⟩, id⟩
    | _ => cases ht

theorem lift_step {n n' : Net σ τ (Frame C)} {b : α ⊕ β} (h : (P.link Q).step n b = some n') :
    ((O.party P).link (A.party Q)).step (lift n) (b.map .body .body) = some (lift n') := by
  cases b with
  | inl a =>
    obtain ⟨s, rest, hs, hq, hh, rfl⟩ := Party.link_inl.mp h
    exact Party.link_inl.mpr ⟨_, rest, Option.map_eq_some_iff.mpr ⟨s, hs, rfl⟩, hq, hh, rfl⟩
  | inr b =>
    obtain ⟨t, rest, ht, hq, hh, rfl⟩ := Party.link_inr.mp h
    exact Party.link_inr.mpr ⟨_, rest, Option.map_eq_some_iff.mpr ⟨t, ht, rfl⟩, hq, hh, rfl⟩

theorem ok_body {n : Net σ τ (Frame C)} {b : α ⊕ β} (h : eachOk okP okQ n b) :
    eachOk (OpenAct.ok okP) (AdmitAct.ok okQ) (lift n)
      (b.map .body .body : OpenAct C α ⊕ AdmitAct C β) := by
  cases b <;> exact h

variable (O A P Q okP okQ) in
/-- The runs of a session without faults whose user accepts end in a given way. -/
def EndsIn (B : Net σ τ (Frame C) → Prop) (n : Net (OpenPhase C σ) (AdmitPhase C τ) (Frame C)) :
    Prop :=
  ((O.party P).link (A.party Q)).EndsIn (eachOk (OpenAct.ok okP) (AdmitAct.ok okQ)) (Running B) n

theorem endsIn_lift {n : Net σ τ (Frame C)} :
    EndsIn O A P Q okP okQ B (lift n) ↔ (P.link Q).EndsIn (eachOk okP okQ) B n := by
  constructor
  · intro h
    unfold EndsIn at h
    generalize hm : lift n = m at h
    induction h generalizing n with
    | intro stop _ ih =>
      subst hm
      refine .intro (fun stuck => ?_) fun b n' hok hs => ?_
      · obtain ⟨n', hn, hB⟩ := stop fun a hok => by
          cases ha : ((O.party P).link (A.party Q)).step (lift n) a with
          | none => rfl
          | some m =>
            obtain ⟨b, n', -, hs, ho⟩ := step_lift okP okQ ha
            simp [stuck b (ho hok)] at hs
        exact lift_injective hn ▸ hB
      · exact ih _ _ (ok_body hok) (lift_step hs) rfl
  · intro h
    induction h with
    | @intro n stop _ ih =>
      refine .intro (fun stuck => ⟨n, rfl, stop fun b hok => ?_⟩) fun a m hok hs => ?_
      · cases hb : (P.link Q).step n b with
        | none => rfl
        | some n' => simpa [lift_step (O := O) (A := A) hb] using stuck _ (ok_body hok)
      · obtain ⟨b, n', rfl, hs', ho⟩ := step_lift okP okQ hs
        exact ih b n' (ho hok) hs'

/-- The reply is in flight, and with it what the receiver has sent since. -/
def replied (key : C.Key) (reply : Frame C) (t : τ) (rest : List (Frame C)) :
    Net (OpenPhase C σ) (AdmitPhase C τ) (Frame C) :=
  ⟨.awaitReply key, .running t, [], reply :: rest⟩

theorem reply_step (key : C.Key) (reply : Frame C) (t : τ) (rest : List (Frame C)) :
    ((O.party P).link (A.party Q)).step (replied key reply t rest) (.inl (.reply reply)) =
      some ⟨O.answered key reply, .running t, [], rest⟩ :=
  Party.link_inl.mpr ⟨_, rest, rfl, rfl, fun hh => absurd hh Bool.false_ne_true, rfl⟩

/-- While the reply is in flight the receiver's loop runs as if the sender's had started. -/
theorem endsIn_replied {key : C.Key} {reply : Frame C} {s : σ} {t : τ} {rest : List (Frame C)}
    (hstart : O.start key reply = some s) :
    EndsIn O A P Q okP okQ B (replied key reply t rest) ↔
      (P.link Q).EndsIn (eachOk okP okQ) B ⟨s, t, [], rest⟩ := by
  have hrun : O.answered key reply = .running s := by simp [Opening.answered, hstart]
  constructor
  · intro h
    have hs := reply_step (O := O) (A := A) (P := P) (Q := Q) key reply t rest
    rw [hrun] at hs
    exact endsIn_lift.mp (h.step (by exact trivial) hs)
  · intro h
    generalize hn : (⟨s, t, [], rest⟩ : Net σ τ (Frame C)) = n at h
    induction h generalizing t rest with
    | intro stop next ih =>
      subst hn
      refine .intro (fun stuck => ?_) fun a m hok hs => ?_
      · have := stuck (.inl (.reply reply)) trivial
        simp [reply_step] at this
      · cases a with
        | inl a =>
          obtain ⟨p, rest', hp, hq, hh, rfl⟩ := Party.link_inl.mp hs
          cases a with
          | reply f =>
            obtain ⟨rfl, rfl⟩ : reply = f ∧ rest = rest' := by
              simpa [replied, Opening.party] using hq
            cases hp
            have hends := (endsIn_lift (O := O) (A := A)).mpr (.intro stop next)
            rwa [lift, ← hrun] at hends
          | hangup => exact absurd (hh rfl).1 (by simp [replied])
          | ioError detail => cases hok
          | _ => cases hp
        | inr b =>
          obtain ⟨q, rest', ht, hq, hh, rfl⟩ := Party.link_inr.mp hs
          cases b with
          | body b =>
            obtain ⟨t', ht', rfl⟩ := Option.map_eq_some_iff.mp ht
            have hnil : Q.recvs b ++ rest' = [] := hq.symm
            obtain ⟨hrecv, rfl⟩ := List.append_eq_nil_iff.mp hnil
            have hlive : Q.hangup b = false :=
              Bool.eq_false_iff.mpr fun hb => absurd (hh hb).2 Bool.false_ne_true
            exact ih (.inr b) _ hok (Party.link_inr_local ht' hrecv hlive) rfl
          | _ => cases ht

variable (O A) in
/-- The opening of a session, one message after the other. -/
inductive Next : Net (OpenPhase C σ) (AdmitPhase C τ) (Frame C) →
    Net (OpenPhase C σ) (AdmitPhase C τ) (Frame C) → Prop
  | clientHello : Next ⟨.hello, .awaitHello, [], []⟩
      ⟨.awaitHello, .awaitHello, [⟨tagClientHello, .key (C.publicKey O.secret)⟩], []⟩
  | hearClient : Next
      ⟨.awaitHello, .awaitHello, [⟨tagClientHello, .key (C.publicKey O.secret)⟩], []⟩
      ⟨.awaitHello, .hello (C.deriveKey A.secret (C.publicKey O.secret)), [], []⟩
  | serverHello (k : C.Key) : Next ⟨.awaitHello, .hello k, [], []⟩
      ⟨.awaitHello, .awaitMetadata k, [], [⟨tagServerHello, .key (C.publicKey A.secret)⟩]⟩
  | hearServer (k : C.Key) : Next
      ⟨.awaitHello, .awaitMetadata k, [], [⟨tagServerHello, .key (C.publicKey A.secret)⟩]⟩
      ⟨.metadata (C.deriveKey O.secret (C.publicKey A.secret)), .awaitMetadata k, [], []⟩
  | announce (k k' : C.Key) : Next ⟨.metadata k, .awaitMetadata k', [], []⟩
      ⟨.awaitReply k, .awaitMetadata k', [⟨tagMetadata, .metadata O.metadata⟩], []⟩
  | hearMetadata (k k' : C.Key) : Next
      ⟨.awaitReply k, .awaitMetadata k', [⟨tagMetadata, .metadata O.metadata⟩], []⟩
      ⟨.awaitReply k, if A.asks then .asking k' O.metadata else .replying k' O.metadata, [], []⟩
  | answer (k k' : C.Key) : Next ⟨.awaitReply k, .asking k' O.metadata, [], []⟩
      ⟨.awaitReply k, .replying k' O.metadata, [], []⟩
  | reply (k k' : C.Key) : Next ⟨.awaitReply k, .replying k' O.metadata, [], []⟩
      ⟨.awaitReply k, .running (A.start k' O.metadata), [], [A.reply O.metadata]⟩

theorem Next.exists (okP : α → Prop) (okQ : β → Prop) {n n'} (h : Next O A n n') : ∃ a, eachOk (OpenAct.ok okP) (AdmitAct.ok okQ) n a ∧
    ((O.party P).link (A.party Q)).step n a = some n' := by
  cases h with
  | clientHello =>
    exact ⟨.inl .hello, trivial, Party.link_inl_local rfl rfl rfl⟩
  | hearClient =>
    exact ⟨.inr (.clientHello _), trivial, Party.link_inr.mpr ⟨_, [], rfl, rfl, nofun, rfl⟩⟩
  | serverHello k =>
    exact ⟨.inr .hello, trivial, Party.link_inr_local rfl rfl rfl⟩
  | hearServer k =>
    exact ⟨.inl (.serverHello _), trivial, Party.link_inl.mpr ⟨_, [], rfl, rfl, nofun, rfl⟩⟩
  | announce k k' =>
    exact ⟨.inl .metadata, trivial, Party.link_inl_local rfl rfl rfl⟩
  | hearMetadata k k' =>
    exact ⟨.inr (.metadata _), trivial, Party.link_inr.mpr ⟨_, [], rfl, rfl, nofun, rfl⟩⟩
  | answer k k' =>
    exact ⟨.inr (.answer true), rfl, Party.link_inr_local rfl rfl rfl⟩
  | reply k k' =>
    exact ⟨.inr .reply, trivial, Party.link_inr_local rfl rfl rfl⟩

theorem Next.unique {n n' u} (h : Next O A n n') {a : OpenAct C α ⊕ AdmitAct C β}
    (hok : eachOk (OpenAct.ok okP) (AdmitAct.ok okQ) n a)
    (hs : ((O.party P).link (A.party Q)).step n a = some u) : u = n' := by
  cases a with
  | inl a =>
    obtain ⟨p, rest, hp, hq, hh, rfl⟩ := Party.link_inl.mp hs
    cases h <;> cases a <;> first
      | (cases hp; done) | (cases hok; done) | (cases hq; done)
      | exact absurd (hh rfl).2 Bool.false_ne_true
      | (cases hp; cases hq; rfl)
  | inr b =>
    obtain ⟨p, rest, hp, hq, hh, rfl⟩ := Party.link_inr.mp hs
    cases h <;> cases b <;> first
      | (cases hp; done) | (cases hok; done) | (cases hq; done)
      | exact absurd (hh rfl).2 Bool.false_ne_true
      | (cases hp; cases hq; rfl)
      | (cases hp; cases hq; cases (show _ = true from hok); rfl)

theorem Next.endsIn {G : Net (OpenPhase C σ) (AdmitPhase C τ) (Frame C) → Prop} {n n'}
    (h : Next O A n n') :
    ((O.party P).link (A.party Q)).EndsIn (eachOk (OpenAct.ok okP) (AdmitAct.ok okQ)) G n ↔
      ((O.party P).link (A.party Q)).EndsIn (eachOk (OpenAct.ok okP) (AdmitAct.ok okQ)) G n' := by
  obtain ⟨a, hok, hs⟩ := h.exists (P := P) (Q := Q) okP okQ
  exact Machine.endsIn_iff_of_unique hok hs fun b u hb hu => h.unique hb hu

/-- The opening has one way to go. -/
theorem endsIn_start_iff_replied {G : Net (OpenPhase C σ) (AdmitPhase C τ) (Frame C) → Prop} :
    ((O.party P).link (A.party Q)).EndsIn (eachOk (OpenAct.ok okP) (AdmitAct.ok okQ)) G
        (start C σ τ) ↔
      ((O.party P).link (A.party Q)).EndsIn (eachOk (OpenAct.ok okP) (AdmitAct.ok okQ)) G
        (replied (C.deriveKey O.secret (C.publicKey A.secret)) (A.reply O.metadata)
          (A.start (C.deriveKey O.secret (C.publicKey A.secret)) O.metadata) []) := by
  have hasked : ∀ k k' : C.Key,
      ((O.party P).link (A.party Q)).EndsIn (eachOk (OpenAct.ok okP) (AdmitAct.ok okQ)) G
        ⟨.awaitReply k,
          if A.asks then .asking k' O.metadata else .replying k' O.metadata, [], []⟩ ↔
      ((O.party P).link (A.party Q)).EndsIn (eachOk (OpenAct.ok okP) (AdmitAct.ok okQ)) G
        ⟨.awaitReply k, .replying k' O.metadata, [], []⟩ := fun k k' => by
    cases A.asks with
    | true => exact (Next.answer k k').endsIn
    | false => exact Iff.rfl
  rw [start, Next.clientHello.endsIn, Next.hearClient.endsIn, (Next.serverHello _).endsIn,
    (Next.hearServer _).endsIn, (Next.announce _ _).endsIn, (Next.hearMetadata _ _).endsIn, hasked,
    (Next.reply _ _).endsIn, C.deriveKey_comm A.secret O.secret]
  rfl

/-- **Session rule.** The runs of a session end well exactly when the runs of the two
loops do, started with the shared key. -/
theorem endsIn_start {s : σ}
    (hstart : O.start (C.deriveKey O.secret (C.publicKey A.secret)) (A.reply O.metadata) = some s) :
    EndsIn O A P Q okP okQ B (start C σ τ) ↔ (P.link Q).EndsIn (eachOk okP okQ) B
      ⟨s, A.start (C.deriveKey O.secret (C.publicKey A.secret)) O.metadata, [], []⟩ :=
  endsIn_start_iff_replied.trans (endsIn_replied hstart)

theorem announced_offer (key : C.Key) : A.announced key O.offer =
    if A.asks then .asking key O.metadata else .replying key O.metadata := by
  rw [Admission.announced, Opening.offer]
  exact if_pos rfl

theorem sends_offer (key : C.Key) :
    (A.party Q).sends (.awaitMetadata key) (.metadata O.offer) = [] := by
  show (if O.offer.tag = tagMetadata then [] else A.complaint O.offer "Expected METADATA".toList) = []
  exact if_pos rfl

variable (O A) in
/-- The states of an opening, with what each side has sent. -/
inductive Opened : List (Frame C) → List (Frame C) →
    Net (OpenPhase C σ) (AdmitPhase C τ) (Frame C) → Prop
  | start : Opened [] [] ⟨.hello, .awaitHello, [], []⟩
  | clientHello : Opened [O.hello] [] ⟨.awaitHello, .awaitHello, [O.hello], []⟩
  | hearClient : Opened [O.hello] []
      ⟨.awaitHello, .hello (C.deriveKey A.secret (C.publicKey O.secret)), [], []⟩
  | serverHello : Opened [O.hello] [A.hello] ⟨.awaitHello,
      .awaitMetadata (C.deriveKey A.secret (C.publicKey O.secret)), [], [A.hello]⟩
  | hearServer : Opened [O.hello] [A.hello]
      ⟨.metadata (C.deriveKey O.secret (C.publicKey A.secret)),
        .awaitMetadata (C.deriveKey A.secret (C.publicKey O.secret)), [], []⟩
  | announce : Opened [O.hello, O.offer] [A.hello]
      ⟨.awaitReply (C.deriveKey O.secret (C.publicKey A.secret)),
        .awaitMetadata (C.deriveKey A.secret (C.publicKey O.secret)), [O.offer], []⟩
  | asking : Opened [O.hello, O.offer] [A.hello]
      ⟨.awaitReply (C.deriveKey O.secret (C.publicKey A.secret)),
        .asking (C.deriveKey A.secret (C.publicKey O.secret)) O.metadata, [], []⟩
  | replying : Opened [O.hello, O.offer] [A.hello]
      ⟨.awaitReply (C.deriveKey O.secret (C.publicKey A.secret)),
        .replying (C.deriveKey A.secret (C.publicKey O.secret)) O.metadata, [], []⟩

/-- The session is past the reply: its loops have run to `b`, where the sender may not have
taken the reply yet. -/
def Past (O : Opening C σ) (A : Admission C τ) (s₀ : σ) (b : Net σ τ (Frame C))
    (n : Net (OpenPhase C σ) (AdmitPhase C τ) (Frame C)) : Prop :=
  n = lift b ∨ b.left = s₀ ∧ b.toRight = [] ∧
    n = replied (C.deriveKey O.secret (C.publicKey A.secret)) (A.reply O.metadata) b.right b.toLeft

/-- **Runs of a session.** A run is in the opening, or it is one of the loops after it. -/
theorem run_cases {s₀ : σ} {oL oR : List (Frame C)}
    {n : Net (OpenPhase C σ) (AdmitPhase C τ) (Frame C)}
    (hstart : O.start (C.deriveKey O.secret (C.publicKey A.secret)) (A.reply O.metadata) = some s₀)
    (h : LinkRun (O.party P) (A.party Q) (eachOk (OpenAct.ok okP) (AdmitAct.ok okQ)) .hello
      .awaitHello oL oR n) :
    Opened O A oL oR n ∨ ∃ b o o', LinkRun P Q (eachOk okP okQ) s₀
      (A.start (C.deriveKey O.secret (C.publicKey A.secret)) O.metadata) o o' b ∧ Past O A s₀ b n ∧
        oL = O.hello :: O.offer :: o ∧ oR = A.hello :: A.reply O.metadata :: o' := by
  have hrun : O.answered (C.deriveKey O.secret (C.publicKey A.secret)) (A.reply O.metadata) =
      .running s₀ := by simp [Opening.answered, hstart]
  induction h with
  | nil => exact .inl .start
  | @left oL oR n n' a _ hok hs ih =>
    obtain ⟨p, rest, hp, hq, hh, rfl⟩ := Party.link_inl.mp hs
    rcases ih with hopen | ⟨b, o, o', hrun', hpast, rfl, rfl⟩
    · left
      cases hopen <;> cases a <;> first
        | (cases hp; done) | (cases hok; done) | (cases hq; done)
        | exact absurd (hh rfl).2 Bool.false_ne_true
        | (cases hp; cases hq; constructor)
    · right
      rcases hpast with rfl | ⟨hb, hnil, rfl⟩
      · cases a with
        | body a =>
          obtain ⟨s', hs', rfl⟩ := Option.map_eq_some_iff.mp hp
          exact ⟨_, _, _, hrun'.left hok (Party.link_inl.mpr ⟨s', rest, hs', hq, hh, rfl⟩),
            .inl rfl, rfl, rfl⟩
        | _ => cases hp
      · cases a with
        | reply f =>
          obtain ⟨rfl, rfl⟩ : A.reply O.metadata = f ∧ b.toLeft = rest := by
            simpa [replied, Opening.party] using hq
          cases hp
          refine ⟨b, o, o', hrun', .inl ?_, by simp [Opening.party, replied], rfl⟩
          rw [hrun, ← hb]
          obtain ⟨s, t, out, inn⟩ := b
          dsimp only at hnil
          subst hnil
          rfl
        | hangup => exact absurd (hh rfl).1 (by simp [replied])
        | ioError detail => cases hok
        | _ => cases hp
  | @right oL oR n n' b _ hok hs ih =>
    obtain ⟨q, rest, hp, hq, hh, rfl⟩ := Party.link_inr.mp hs
    rcases ih with hopen | ⟨m, o, o', hrun', hpast, rfl, rfl⟩
    · cases hopen with
      | announce =>
        left
        cases b with
        | metadata f =>
          cases hq
          cases hp
          rw [sends_offer, announced_offer]
          cases A.asks with
          | true => exact Opened.asking
          | false => exact Opened.replying
        | hangup => exact absurd (hh rfl).2 Bool.false_ne_true
        | ioError detail => cases hok
        | _ => cases hp
      | asking =>
        left
        cases b with
        | answer accepted =>
          cases hq
          cases (show accepted = true from hok)
          cases hp
          exact Opened.replying
        | _ => cases hp
      | replying =>
        right
        cases b with
        | reply =>
          cases hq
          cases hp
          refine ⟨⟨s₀, _, [], []⟩, [], [], .nil, .inr ⟨rfl, rfl, ?_⟩, rfl, rfl⟩
          rw [C.deriveKey_comm A.secret O.secret]
          rfl
        | ioError detail => cases hok
        | _ => cases hp
      | _ =>
        left
        cases b <;> first
          | (cases hp; done) | (cases hok; done) | (cases hq; done)
          | exact absurd (hh rfl).2 Bool.false_ne_true
          | (cases hp; cases hq; constructor)
    · right
      rcases hpast with rfl | ⟨hb, hnil, rfl⟩
      · cases b with
        | body b =>
          obtain ⟨t', ht', rfl⟩ := Option.map_eq_some_iff.mp hp
          exact ⟨_, _, _, hrun'.right hok (Party.link_inr.mpr ⟨t', rest, ht', hq, hh, rfl⟩),
            .inl rfl, rfl, rfl⟩
        | _ => cases hp
      · cases b with
        | body b =>
          obtain ⟨t', ht', rfl⟩ := Option.map_eq_some_iff.mp hp
          have hempty : Q.recvs b ++ rest = [] := hq.symm
          obtain ⟨hrecv, rfl⟩ := List.append_eq_nil_iff.mp hempty
          have hlive : Q.hangup b = false :=
            Bool.eq_false_iff.mpr fun hb => absurd (hh hb).2 Bool.false_ne_true
          exact ⟨_, _, _, hrun'.right hok (Party.link_inr_local ht' hrecv hlive),
            .inr ⟨hb, hnil, rfl⟩, rfl, rfl⟩
        | _ => cases hp

/-- A session ends as its loops do. -/
theorem endsIn_iff {c : Prop} {s : σ}
    (hstart : O.start (C.deriveKey O.secret (C.publicKey A.secret)) (A.reply O.metadata) = some s)
    (h : (P.link Q).EndsIn (eachOk okP okQ) (fun b => B b ↔ c)
      ⟨s, A.start (C.deriveKey O.secret (C.publicKey A.secret)) O.metadata, [], []⟩) :
    ((O.party P).link (A.party Q)).EndsIn (eachOk (OpenAct.ok okP) (AdmitAct.ok okQ))
      (fun n => Running B n ↔ c) (start C σ τ) := by
  refine ((endsIn_start hstart).mpr h).mono fun n _ _ hn => ?_
  obtain ⟨b, rfl, hb⟩ := hn
  constructor
  · rintro ⟨b', heq, hB⟩
    exact hb.mp (lift_injective heq ▸ hB)
  · exact fun hc => ⟨b, rfl, hb.mpr hc⟩

/-- A sender that does not take the reply for an acceptance, and a receiver that does not know. -/
structure Rejected (O : Opening C σ) (A : Admission C τ) (key : C.Key)
    (n : Net (OpenPhase C σ) (AdmitPhase C τ) (Frame C)) : Prop where
  left : n.left = .awaitReply key ∧ n.toLeft.head? = some (A.reply O.metadata) ∨
    n.left = .failed .rejected
  right : ∃ t, n.right = .running t
  toRight : n.toRight = []

def rejectedRank (r : τ → Nat) (n : Net (OpenPhase C σ) (AdmitPhase C τ) (Frame C)) : Nat :=
  (match n.left with | .awaitReply _ => 1 | _ => 0) +
    (match n.right with | .running t => r t | _ => 0)

theorem Rejected.step {key : C.Key} {r : τ → Nat} {w : Frame C → Nat}
    {n n' : Net (OpenPhase C σ) (AdmitPhase C τ) (Frame C)} {a : OpenAct C α ⊕ AdmitAct C β}
    (h : Rejected O A key n) (hrej : O.start key (A.reply O.metadata) = none)
    (hlower : ∀ t b t', okQ b → Q.step t b = some t' →
      r t' + Party.weight w (Q.sends t b) < r t + Party.weight w (Q.recvs b))
    (hok : eachOk (OpenAct.ok okP) (AdmitAct.ok okQ) n a)
    (hs : ((O.party P).link (A.party Q)).step n a = some n') :
    Rejected O A key n' ∧ rejectedRank r n' < rejectedRank r n := by
  obtain ⟨left, right, toRight, toLeft⟩ := n
  obtain ⟨hleft, ⟨t, ht⟩, hto⟩ := h
  dsimp only at hleft ht hto
  subst ht hto
  cases a with
  | inl a =>
    obtain ⟨p, rest, hp, hq, hh, rfl⟩ := Party.link_inl.mp hs
    rcases hleft with ⟨rfl, hhead⟩ | rfl
    · cases a with
      | reply f =>
        have hf : f = A.reply O.metadata := by
          rw [show toLeft = f :: rest from hq] at hhead
          exact Option.some.inj hhead
        obtain rfl := Option.some.inj hp
        subst hf
        have hans : O.answered key (A.reply O.metadata) = .failed .rejected := by
          rw [Opening.answered, hrej]
        refine ⟨⟨.inr hans, ⟨t, rfl⟩, rfl⟩, ?_⟩
        simp only [rejectedRank, hans]
        omega
      | hangup =>
        rw [show toLeft = [] from (hh rfl).1] at hhead
        cases hhead
      | ioError detail => cases hok
      | _ => cases hp
    · cases a <;> cases hp
  | inr b =>
    obtain ⟨q, rest, hp, hq, hh, rfl⟩ := Party.link_inr.mp hs
    cases b with
    | body b =>
      obtain ⟨t', ht', rfl⟩ := Option.map_eq_some_iff.mp hp
      obtain ⟨hrecv, rfl⟩ := List.append_eq_nil_iff.mp (show Q.recvs b ++ rest = [] from hq.symm)
      have hless := hlower t b t' hok ht'
      rw [hrecv, Party.weight_nil] at hless
      refine ⟨⟨?_, ⟨t', rfl⟩, rfl⟩, ?_⟩
      · rcases hleft with ⟨rfl, hhead⟩ | rfl
        · refine .inl ⟨rfl, ?_⟩
          rw [List.head?_append, hhead]
          rfl
        · exact .inr rfl
      · simp only [rejectedRank]
        omega
    | _ => cases hp

/-- Where the sender does not take the reply for an acceptance, every run ends, and none with both
loops running. -/
theorem endsIn_rejected {r : τ → Nat} {w : Frame C → Nat}
    (hrej : O.start (C.deriveKey O.secret (C.publicKey A.secret)) (A.reply O.metadata) = none)
    (hlower : ∀ t b t', okQ b → Q.step t b = some t' →
      r t' + Party.weight w (Q.sends t b) < r t + Party.weight w (Q.recvs b)) :
    ((O.party P).link (A.party Q)).EndsIn (eachOk (OpenAct.ok okP) (AdmitAct.ok okQ))
      (fun n => ¬ Running B n) (start C σ τ) := by
  refine endsIn_start_iff_replied.mpr (Machine.endsIn_of_rank
    (Rejected O A (C.deriveKey O.secret (C.publicKey A.secret))) (rejectedRank r)
    (fun n a n' hn hok hs => (hn.step hrej hlower hok hs).1)
    (fun n a n' hn hok hs => (hn.step hrej hlower hok hs).2) ?_
    ⟨.inl ⟨rfl, rfl⟩, ⟨_, rfl⟩, rfl⟩)
  rintro n hn - ⟨b, rfl, -⟩
  rcases hn.left with ⟨h, -⟩ | h <;> cases h

end Session

end P2PTransfer
