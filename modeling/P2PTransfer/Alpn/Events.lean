import P2PTransfer.Alpn.Transfer
import P2PTransfer.Lib.Log

/-!
# The events of a QUIC transfer

Both functions report to the frontend as they go: the sender its phases and the bytes it
has sent, the receiver the request and the bytes it has received, and each how it ends.
Their blocking tasks report errors of their own. Progress is reported only when a timer
allows it, and a full channel loses what is tried: the frontend sees some of what may be
reported, in its order.

## Main definitions

- `Event`, `Reporter` — what is reported, and by which task
- `Sender.report`, `Receiver.report` — what a step may report
- `InOrder` — reports that go through the phases once, with counts that go up
- `Tells` — what the reports of both functions say of the transfer
-/

namespace P2PTransfer.Alpn

open Transition Party

variable {C : Primitives}

inductive SendStatus where
  | connecting
  | waitingForAccept
  | accepted
  | transferring
  | done
deriving DecidableEq

/-- An event of the channel. Errors, cancellation and completion are final. -/
inductive Event (C : Primitives) where
  | sendStatus (status : SendStatus)
  | rejected
  | incoming (request : TransferRequest)
  | progress (bytesTransferred total : Nat)
  | final (e : TransferEvent C)

/-- A function, or the blocking task that it has spawned. -/
inductive Reporter where
  | function
  | task
deriving DecidableEq

namespace Event

def phase : Event C → Nat
  | .sendStatus .connecting | .incoming _ => 1
  | .sendStatus .waitingForAccept => 2
  | .sendStatus .accepted => 3
  | .sendStatus .transferring => 4
  | .progress _ _ => 5
  | .sendStatus .done | .rejected | .final _ => 6

def bytes : Event C → Nat
  | .progress n _ => n
  | _ => 0

/-- One phase comes after the other, and progress goes up. -/
def Before (e e' : Event C) : Prop :=
  e.phase < e'.phase ∨ e.phase = e'.phase ∧ e.bytes < e'.bytes

theorem eq_progress {e : Event C} (h : e.phase = 5) : ∃ k total, e = .progress k total := by
  cases e with
  | progress k total => exact ⟨k, total, rfl⟩
  | sendStatus status => cases status <;> cases h
  | _ => cases h

end Event

/-- What one of the two tasks has reported. -/
def spoken (who : Reporter) (l : List (Reporter × Event C)) : List (Event C) :=
  (l.filter fun r => r.1 = who).map Prod.snd

theorem spoken_append (who : Reporter) (l l' : List (Reporter × Event C)) :
    spoken who (l ++ l') = spoken who l ++ spoken who l' := by
  simp [spoken]

theorem spoken_sublist {who : Reporter} {l l' : List (Reporter × Event C)} (h : l.Sublist l') :
    (spoken who l).Sublist (spoken who l') :=
  (h.filter _).map _

/-- The events are in order, and the counts among them are above `off` and at most `top`. -/
structure InOrder (off top total : Nat) (l : List (Event C)) : Prop where
  sorted : l.Pairwise Event.Before
  counts : ∀ k n, .progress k n ∈ l → off < k ∧ k ≤ top ∧ n = total

namespace InOrder

variable {off top total phase : Nat} {l l' : List (Event C)} {e : Event C}

theorem sublist (h : InOrder off top total l) (hl : l'.Sublist l) : InOrder off top total l' :=
  ⟨h.sorted.sublist hl, fun k n hk => h.counts k n (hl.subset hk)⟩

theorem mono {top' : Nat} (h : InOrder off top total l) (htop : top ≤ top') :
    InOrder off top' total l := by
  refine ⟨h.sorted, fun k n hk => ?_⟩
  obtain ⟨hoff, hk, hn⟩ := h.counts k n hk
  exact ⟨hoff, hk.trans htop, hn⟩

/-- Before the first count the range does not matter. -/
theorem early {off' top' total' : Nat} (h : InOrder off top total l)
    (hl : ∀ e ∈ l, e.phase ≤ phase) (hp : phase < 5) : InOrder off' top' total' l := by
  refine ⟨h.sorted, fun k n hk => ?_⟩
  have := hl _ hk
  simp only [Event.phase] at this
  omega

theorem snoc (h : InOrder off top total l) (hbefore : ∀ e' ∈ l, e'.Before e)
    (hcount : ∀ k n, e = .progress k n → off < k ∧ k ≤ top ∧ n = total) :
    InOrder off top total (l ++ [e]) := by
  constructor
  · rw [List.pairwise_append]
    refine ⟨h.sorted, List.pairwise_singleton _ _, fun e' he' e'' he'' => ?_⟩
    rw [List.mem_singleton.mp he'']
    exact hbefore e' he'
  · intro k n hk
    rcases List.mem_append.mp hk with hk | hk
    · exact h.counts k n hk
    · exact hcount k n (List.mem_singleton.mp hk).symm

/-- An event of a later phase that is no progress. -/
theorem snoc_later (h : InOrder off top total l) (hl : ∀ e' ∈ l, e'.phase ≤ phase)
    (hlater : phase < e.phase) (he : e.phase ≠ 5) : InOrder off top total (l ++ [e]) := by
  apply h.snoc
  · intro e' he'
    exact .inl ((hl e' he').trans_lt hlater)
  · intro k n hk
    exact absurd (hk ▸ rfl) he

/-- Progress after progress. -/
theorem snoc_progress {k : Nat} (h : InOrder off top total l) (hl : ∀ e' ∈ l, e'.phase ≤ 5)
    (hoff : off ≤ top) (hk : top < k) :
    InOrder off k total (l ++ [.progress k total]) := by
  apply (h.mono hk.le).snoc
  · intro e' he'
    rcases (hl e' he').lt_or_eq with hlt | heq
    · exact .inl hlt
    · obtain ⟨k', n, rfl⟩ := Event.eq_progress heq
      exact .inr ⟨rfl, (h.counts k' n he').2.1.trans_lt hk⟩
  · intro k' n he
    obtain ⟨rfl, rfl⟩ := Event.progress.inj he
    exact ⟨hoff.trans_lt hk, le_rfl, rfl⟩

end InOrder

/-- The reports up to a phase: the function in order, and the errors of its task. -/
structure Chronicle (off top total phase : Nat) (failures : List (Event C))
    (l : List (Reporter × Event C)) : Prop where
  inOrder : InOrder off top total (spoken .function l)
  phase : ∀ e ∈ spoken .function l, e.phase ≤ phase
  task : spoken .task l = failures

namespace Chronicle

variable {off top total phase : Nat} {failures : List (Event C)} {l : List (Reporter × Event C)}
  {e : Event C}

theorem mono {top' phase' : Nat} (h : Chronicle off top total phase failures l) (htop : top ≤ top')
    (hphase : phase ≤ phase') : Chronicle off top' total phase' failures l :=
  ⟨h.inOrder.mono htop, fun e he => (h.phase e he).trans hphase, h.task⟩

/-- Before the first count the range does not matter. -/
theorem early {off' top' total' : Nat} (h : Chronicle off top total phase failures l)
    (hp : phase < 5) : Chronicle off' top' total' phase failures l :=
  ⟨h.inOrder.early h.phase hp, h.phase, h.task⟩

theorem later (h : Chronicle off top total phase failures l) (hlater : phase < e.phase)
    (he : e.phase ≠ 5) : Chronicle off top total e.phase failures (l ++ [(.function, e)]) := by
  have hl : spoken .function (l ++ [(.function, e)]) = spoken .function l ++ [e] :=
    spoken_append ..
  refine ⟨?_, ?_, ?_⟩
  · rw [hl]
    exact h.inOrder.snoc_later h.phase hlater he
  · rw [hl]
    intro e' he'
    rcases List.mem_append.mp he' with he' | he'
    · exact (h.phase e' he').trans hlater.le
    · rw [List.mem_singleton.mp he']
  · rw [spoken_append, h.task]
    exact List.append_nil _

theorem progress {k : Nat} (h : Chronicle off top total 5 failures l) (hoff : off ≤ top)
    (hk : top < k) :
    Chronicle off k total 5 failures (l ++ [(.function, .progress k total)]) := by
  have hl : spoken .function (l ++ [(.function, .progress k total)]) =
      spoken .function l ++ [.progress k total] := spoken_append ..
  refine ⟨?_, ?_, ?_⟩
  · rw [hl]
    exact h.inOrder.snoc_progress h.phase hoff hk
  · rw [hl]
    intro e he
    rcases List.mem_append.mp he with he | he
    · exact h.phase e he
    · rw [List.mem_singleton.mp he]
      exact le_rfl
  · rw [spoken_append, h.task]
    exact List.append_nil _

/-- The task reports its error. -/
theorem failed (h : Chronicle off top total phase [] l) :
    Chronicle off top total phase [e] (l ++ [(.task, e)]) := by
  have hl : spoken .function (l ++ [(.task, e)]) = spoken .function l := by
    rw [spoken_append]
    exact List.append_nil _
  refine ⟨hl.symm ▸ h.inOrder, hl.symm ▸ h.phase, ?_⟩
  rw [spoken_append, h.task]
  rfl

end Chronicle

namespace Sender

/-- What a step from `s` to `t` may report. -/
def report (request : TransferRequest) (s t : State C) : Act → Option (Reporter × Event C)
  | .writeRequest => some (.function, .sendStatus .waitingForAccept)
  | .rejected _ => some (.function, .rejected)
  | .accepted _ => some (.function, .sendStatus .accepted)
  -- the last phase is announced while the reader runs, before the loop begins
  | .getFlag => if s.dequeued = 0 then some (.function, .sendStatus .transferring) else none
  | .writeRest => some (.function, .progress (t.startOffset + t.sent) request.fileSize)
  | .seeCancel => some (.function, .final .cancelled)
  | .clearActive => some (.function, .sendStatus .done)
  | .fail (.stat _) => none
  | .fail e => some (.function, .final (.error e.text))
  | .readError detail => some (.task, .final (.error detail))
  | _ => none

/-- The phase that the function has reported last. -/
def State.phase (s : State C) : Nat :=
  match s.pc with
  | .connect | .activate | .register | .writeRequest => 1
  | .awaitResponse => 2
  | .getFlag => if s.dequeued = 0 then 3 else 5
  | .cancelActive | .cancelFlag | .returned => 6
  | _ => 5

/-- The final event for a result. The function leaves the errors of the reader to the reader. -/
def outcome : Except SendError C.Digest → List (Event C)
  | .ok _ => [.sendStatus .done]
  | .error .rejected => [.rejected]
  | .error .cancelled => [.final .cancelled]
  | .error (.stat _) | .error (.reader _) => []
  | .error e => [.final (.error e.text)]

/-- The final events that the function has reported. -/
def State.ending (s : State C) : List (Event C) :=
  match s.pc with
  | .cancelActive | .cancelFlag => [.final .cancelled]
  | .returned => (s.result.map outcome).getD []
  | _ => []

/-- The errors that the reader has reported. -/
def State.failures (s : State C) : List (Event C) :=
  match s.reader with
  | .failed detail => [.final (.error detail)]
  | _ => []

/-- What the program counters say of the result and of the blocks on the way. -/
structure Flow (s : State C) : Prop where
  chunk : s.pc = .write → s.chunk ≠ [] ∧ s.dequeued ≠ 0
  channel : ∀ c ∈ s.channel, c ≠ []
  held : s.reader = .send → s.held ≠ []
  taken : s.pc.early ∨ s.pc = .getFlag ∨ s.pc = .checkFlag ∨ s.pc = .dequeue → s.chunk = []
  early : s.pc.early → s.reader = .idle
  idle : s.reader = .idle → (s.pc.early ∨ s.pc = .returned) ∧ s.sent = 0
  drained : s.pc = .finish ∨ s.pc = .join → s.reader.ended ∧ s.channel = [] ∧ s.chunk = []
  joined : s.pc = .clearFlag ∨ s.pc = .clearActive → ∃ d, s.result = some (.ok d)
  ended : s.result ≠ none → s.pc = .clearFlag ∨ s.pc = .clearActive ∨ s.pc = .returned
  complete : ∀ d, s.result = some (.ok d) → s.reader = .done ∧ s.channel = [] ∧ s.chunk = []

theorem Flow.start : Flow ({} : State C) := by
  constructor <;> simp [Pc.early]

theorem Flow.step {disk : Disk} {s t : State C} {a : Act} (h : Flow s)
    (hs : Sender.step disk s a = some t) : Flow t := by
  obtain ⟨hchunk, hchannel, hheld, htaken, hearly, hidle, hdrained, hjoined, hended,
    hcomplete⟩ := h
  have hnone : s.pc = .dequeue ∨ s.pc = .write → s.result = none := by
    intro hp
    by_contra hr
    rcases hp with hp | hp <;> simp [hp] at hended <;> exact hr hended
  have hrun : s.pc = .dequeue ∨ s.pc = .write → s.reader ≠ .idle := by
    intro hp hr
    rcases hp with hp | hp <;> simp [hp, Pc.early] at hidle <;> exact hidle hr
  cases a with
  | command c =>
    obtain ⟨control, hc, rfl⟩ := Option.map_eq_some_iff.mp hs
    exact ⟨hchunk, hchannel, hheld, htaken, hearly, hidle, hdrained, hjoined, hended,
      hcomplete⟩
  | dequeue chunk =>
    obtain ⟨⟨g, -, hhead⟩, rfl⟩ := guarded_eq_some.mp hs
    obtain ⟨rest, hrest⟩ := List.head?_eq_some_iff.mp hhead
    rw [hrest] at hchannel
    have hnew : chunk ≠ [] := hchannel chunk List.mem_cons_self
    refine ⟨fun _ => ⟨hnew, Nat.succ_ne_zero _⟩, fun c hc => ?_, hheld, by simp [Pc.early],
      by simp [Pc.early], fun hr => absurd hr (hrun (.inl g)), by simp, by simp,
      fun hr => absurd (hnone (.inl g)) hr, fun d hd => ?_⟩
    · rw [hrest] at hc
      exact hchannel c (List.mem_cons_of_mem _ hc)
    · rw [hnone (.inl g)] at hd
      cases hd
  | writePart n =>
    obtain ⟨⟨g, -, -, hn⟩, rfl⟩ := guarded_eq_some.mp hs
    refine ⟨fun _ => ⟨?_, (hchunk g).2⟩, hchannel, hheld, by simp [g, Pc.early], hearly,
      fun hr => absurd hr (hrun (.inr g)), by simp [g], by simp [g], hended, fun d hd => ?_⟩
    · rw [ne_eq, List.drop_eq_nil_iff, not_le]
      exact hn
    · rw [hnone (.inr g)] at hd
      cases hd
  | sendChunk =>
    obtain ⟨⟨g, -, -⟩, rfl⟩ := guarded_eq_some.mp hs
    refine ⟨hchunk, fun c hc => ?_, by simp, htaken, ?_, by simp, ?_, hjoined, hended, ?_⟩
    · rcases List.mem_append.mp hc with hc | hc
      · exact hchannel c hc
      · rw [List.mem_singleton.mp hc]
        exact hheld g
    · intro hp
      simpa [g] using hearly hp
    · intro hp
      simpa [g, ReaderPc.ended] using (hdrained hp).1
    · intro d hd
      simpa [g] using (hcomplete d hd).1
  | _ =>
    obtain ⟨g, rfl⟩ := guarded_eq_some.mp hs
    refine ⟨?_, ?_, ?_, ?_, ?_, ?_, ?_, ?_, ?_, ?_⟩ <;> first
      | assumption
      | grind -ring -linarith [Pc.early, Pc.polls_iff, ReaderPc.ended_iff, strikes]

/-- What the sender has reported. -/
structure Speaks (request : TransferRequest) (l : List (Reporter × Event C)) (s : State C) :
    Prop extends Chronicle s.startOffset (s.startOffset + s.sent) request.fileSize s.phase
      s.failures l where
  ending : (spoken .function l).filter (fun e => e.phase = 6) = s.ending

/-- Only a function that succeeds says that it is done. -/
theorem State.ok_of_done {s : State C} (h : .sendStatus .done ∈ s.ending) :
    ∃ d, s.result = some (.ok d) := by
  unfold State.ending at h
  split at h
  · cases List.mem_singleton.mp h
  · cases List.mem_singleton.mp h
  · cases hr : s.result with
    | none => simp [hr] at h
    | some r =>
      cases r with
      | ok d => exact ⟨d, rfl⟩
      | error e => cases e <;> simp [hr, outcome] at h
  · cases h

theorem Speaks.start (request : TransferRequest) :
    Speaks request [(.function, .sendStatus .connecting)] ({} : State C) := by
  refine ⟨⟨⟨List.pairwise_singleton _ _, ?_⟩, ?_, rfl⟩, rfl⟩
  · intro k n hk
    cases List.mem_singleton.mp hk
  · intro e he
    rw [List.mem_singleton.mp he]
    exact le_rfl

theorem phase_le (s : State C) : s.phase ≤ 6 := by
  unfold State.phase
  split <;> first
    | decide
    | split <;> decide

theorem ending_eq_nil {s : State C} (h : s.phase < 6) : s.ending = [] := by
  revert h
  unfold State.phase State.ending
  cases s.pc <;> simp

section

variable {request : TransferRequest} {l : List (Reporter × Event C)} {s t : State C}
  {e : Event C}

/-- A step that reports nothing. -/
theorem Speaks.quiet (h : Speaks request l s) (hoff : t.startOffset = s.startOffset)
    (hsent : s.sent ≤ t.sent) (hphase : s.phase ≤ t.phase) (hend : t.ending = s.ending)
    (hfail : t.failures = s.failures) : Speaks request l t := by
  refine ⟨?_, h.ending.trans hend.symm⟩
  rw [hoff, hfail]
  exact h.toChronicle.mono (Nat.add_le_add_left hsent _) hphase

/-- A step that reports a later phase. -/
theorem Speaks.later (h : Speaks request l s) (hlater : s.phase < e.phase) (he : e.phase ≠ 5)
    (ht : e.phase ≤ t.phase)
    (hsame : s.phase < 5 ∨ t.startOffset = s.startOffset ∧ t.sent = s.sent)
    (hend : t.ending = if e.phase = 6 then [e] else []) (hfail : t.failures = s.failures) :
    Speaks request (l ++ [(.function, e)]) t := by
  have hnil : s.ending = [] := ending_eq_nil (by have := phase_le t; omega)
  constructor
  · rw [hfail]
    refine (Chronicle.later ?_ hlater he).mono le_rfl ht
    rcases hsame with hearly | ⟨hoff, hsent⟩
    · exact h.toChronicle.early hearly
    · rw [hoff, hsent]
      exact h.toChronicle
  · have hl : spoken .function (l ++ [(.function, e)]) = spoken .function l ++ [e] :=
      spoken_append ..
    rw [hl, List.filter_append, h.ending, hnil, List.nil_append, hend, List.filter_singleton]
    simp

/-- A step that reports the phase that it goes to. -/
theorem Speaks.next (h : Speaks request l s) (hlater : s.phase < e.phase) (he : e.phase ≠ 5)
    (ht : t.phase = e.phase) (hoff : t.startOffset = s.startOffset) (hsent : t.sent = s.sent)
    (hend : t.ending = if e.phase = 6 then [e] else []) (hfail : t.failures = s.failures) :
    Speaks request (l ++ [(.function, e)]) t :=
  h.later hlater he ht.ge (.inr ⟨hoff, hsent⟩) hend hfail

/-- A step that reports progress. -/
theorem Speaks.progress (h : Speaks request l s) (hs : s.phase = 5) (ht : t.phase = 5)
    (hoff : t.startOffset = s.startOffset) (hsent : s.sent < t.sent) (hend : t.ending = [])
    (hfail : t.failures = s.failures) :
    Speaks request (l ++ [(.function, .progress (t.startOffset + t.sent) request.fileSize)]) t := by
  have hreported := h.toChronicle
  rw [hs] at hreported
  constructor
  · rw [ht, hfail, hoff]
    exact hreported.progress (Nat.le_add_right _ _) (by omega)
  · rw [spoken_append, List.filter_append, h.ending, ending_eq_nil (by omega), hend]
    rfl

theorem Speaks.step {disk : Disk} {a : Act} (h : Speaks request l s) (hf : Flow s)
    (hs : Sender.step disk s a = some t) :
    Speaks request (l ++ (report request s t a).toList) t := by
  cases a with
  | command c =>
    obtain ⟨control, hc, rfl⟩ := Option.map_eq_some_iff.mp hs
    simp only [report, Option.toList_none, List.append_nil]
    exact h.quiet rfl le_rfl le_rfl rfl rfl
  | writeRequest =>
    obtain ⟨g, rfl⟩ := guarded_eq_some.mp hs
    have hp : s.phase = 1 := by simp [State.phase, g]
    exact h.next (by simp [hp, Event.phase]) (by simp [Event.phase]) rfl rfl rfl rfl rfl
  | accepted k =>
    obtain ⟨g, rfl⟩ := guarded_eq_some.mp hs
    have hp : s.phase = 2 := by simp [State.phase, g]
    have hidle := hf.early (by simp [g, Pc.early])
    refine h.later (by simp [hp, Event.phase]) (by simp [Event.phase]) ?_ (.inl (by simp [hp])) rfl
      (by simp [State.failures, hidle])
    simp only [State.phase, Event.phase]
    split <;> decide
  | rejected k =>
    obtain ⟨g, rfl⟩ := guarded_eq_some.mp hs
    have hp : s.phase = 2 := by simp [State.phase, g]
    exact h.next (by simp [hp, Event.phase]) (by simp [Event.phase]) rfl rfl rfl rfl rfl
  | getFlag =>
    obtain ⟨g, rfl⟩ := guarded_eq_some.mp hs
    by_cases hfirst : s.dequeued = 0
    · have hp : s.phase = 3 := by simp [State.phase, g, hfirst]
      simp only [report, hfirst, if_true, Option.toList_some]
      exact h.later (by simp [hp, Event.phase]) (by simp [Event.phase])
        (by simp [Event.phase, State.phase]) (.inr ⟨rfl, rfl⟩) rfl rfl
    · have hp : s.phase = 5 := by simp [State.phase, g, hfirst]
      simp only [report, hfirst, if_false, Option.toList_none, List.append_nil]
      exact h.quiet rfl le_rfl hp.le (by simp [State.ending, g]) rfl
  | writeRest =>
    obtain ⟨⟨g, -⟩, rfl⟩ := guarded_eq_some.mp hs
    obtain ⟨hchunk, hdequeued⟩ := hf.chunk g
    exact h.progress (by simp [State.phase, g]) (by simp [State.phase, hdequeued]) rfl
      (by have := List.length_pos_of_ne_nil hchunk; simp; omega) rfl rfl
  | seeCancel =>
    obtain ⟨⟨g, -⟩, rfl⟩ := guarded_eq_some.mp hs
    have hp : s.phase = 5 := by
      rcases Pc.polls_iff.mp g with g | g | g <;> simp [State.phase, g]
    exact h.next (by simp [hp, Event.phase]) (by simp [Event.phase]) rfl rfl rfl rfl rfl
  | clearActive =>
    obtain ⟨g, rfl⟩ := guarded_eq_some.mp hs
    have hp : s.phase = 5 := by simp [State.phase, g]
    obtain ⟨d, hd⟩ := hf.joined (.inr g)
    refine h.next (by simp [hp, Event.phase]) (by simp [Event.phase]) rfl rfl rfl ?_ rfl
    simp [State.ending, hd, outcome, Event.phase]
  | readError detail =>
    obtain ⟨g, rfl⟩ := guarded_eq_some.mp hs
    have hnil : s.failures = [] := by
      rcases g with g | g <;> simp [State.failures, g]
    have hreported := h.toChronicle
    rw [hnil] at hreported
    refine ⟨hreported.failed, ?_⟩
    rw [spoken_append, List.filter_append, h.ending]
    exact List.append_nil _
  | fail e =>
    obtain ⟨⟨g, -⟩, rfl⟩ := guarded_eq_some.mp hs
    have hp : s.phase < 6 := by
      revert g
      unfold State.phase
      cases s.pc <;> simp [strikes]
    cases e with
    | stat detail =>
      simp only [report, Option.toList_none, List.append_nil]
      exact h.quiet rfl le_rfl hp.le (ending_eq_nil hp).symm rfl
    | rejected => simp [strikes] at g
    | cancelled => simp [strikes] at g
    | reader detail => simp [strikes] at g
    | _ => exact h.next hp (by simp [Event.phase]) rfl rfl rfl rfl rfl
  | _ =>
    obtain ⟨g, rfl⟩ := guarded_eq_some.mp hs
    simp only [report, Option.toList_none, List.append_nil]
    apply h.quiet <;> first
      | rfl
      | grind [State.phase, State.ending, State.failures, outcome]

end

end Sender

namespace Receiver

/-- What a step from `s` to `t` may report. -/
def report (s t : State C) : Act → Option (Reporter × Event C)
  | .activate => some (.function, .incoming s.request)
  | .createDirError detail =>
      some (.function, .final (.error ("Cannot create output directory: ".toList ++ detail)))
  | .forward => some (.function, .progress (t.resumeOffset + t.bytesReceived) s.request.fileSize)
  | .writeError detail => some (.task, .final (.error ("Disk write failed: ".toList ++ detail)))
  | .settle e => some (.function, .final (e.event C))
  | .complete => some (.function, .final (.complete s.path (C.blake3 s.hashed)))
  | _ => none

/-- The phase that the function has reported last. -/
def State.phase (s : State C) : Nat :=
  match s.pc with
  | .readRequest | .activate => 0
  | .register | .awaitAnswer | .rejectActive | .rejectFlag | .rejectRespond | .prepare
  | .respond => 1
  | .clearActive | .returned => 6
  | _ => 5

/-- The errors that the writer has reported. -/
def State.failures (s : State C) : List (Event C) :=
  match s.writer with
  | .failed (.diskWrite detail) => [.final (.error ("Disk write failed: ".toList ++ detail))]
  | _ => []

/-- What the receiver has reported. -/
structure Speaks (l : List (Reporter × Event C)) (s : State C) : Prop
    extends Chronicle s.resumeOffset (s.resumeOffset + s.bytesReceived) s.request.fileSize s.phase
      s.failures l where
  held : s.pc = .forward → s.held ≠ []

theorem Speaks.start (fs : Files) : Speaks [] ({ files := fs } : State C) := by
  refine ⟨⟨⟨List.Pairwise.nil, ?_⟩, ?_, rfl⟩, by simp⟩ <;> simp [spoken]

section

variable {outputDir : Text} {fs : Files} {l : List (Reporter × Event C)} {s t : State C}
  {e : Event C}

/-- A step that reports nothing. -/
theorem Speaks.quiet (h : Speaks l s)
    (hsame : s.phase < 5 ∨ t.resumeOffset = s.resumeOffset ∧ t.bytesReceived = s.bytesReceived ∧
      t.request = s.request) (hphase : s.phase ≤ t.phase) (hfail : t.failures = s.failures)
    (hheld : t.pc = .forward → t.held ≠ []) : Speaks l t := by
  refine ⟨?_, hheld⟩
  rw [hfail]
  refine Chronicle.mono ?_ le_rfl hphase
  rcases hsame with hearly | ⟨hoff, hbytes, hrequest⟩
  · exact h.toChronicle.early hearly
  · rw [hoff, hbytes, hrequest]
    exact h.toChronicle

/-- A step that reports a later phase. -/
theorem Speaks.later (h : Speaks l s) (hlater : s.phase < e.phase) (he : e.phase ≠ 5)
    (ht : e.phase ≤ t.phase) (hoff : t.resumeOffset = s.resumeOffset)
    (hbytes : t.bytesReceived = s.bytesReceived) (hrequest : t.request = s.request)
    (hfail : t.failures = s.failures) (hheld : t.pc ≠ .forward) :
    Speaks (l ++ [(.function, e)]) t := by
  refine ⟨?_, fun hp => absurd hp hheld⟩
  rw [hoff, hbytes, hrequest, hfail]
  exact (h.toChronicle.later hlater he).mono le_rfl ht

theorem Speaks.step {a : Act} (h : Speaks l s) (hp : Phases outputDir fs s)
    (hs : Receiver.step outputDir s a = some t) :
    Speaks (l ++ (report s t a).toList) t := by
  cases a with
  | command c =>
    obtain ⟨control, hc, rfl⟩ := Option.map_eq_some_iff.mp hs
    simp only [report, Option.toList_none, List.append_nil]
    exact h.quiet (.inr ⟨rfl, rfl, rfl⟩) le_rfl rfl h.held
  | activate =>
    obtain ⟨g, rfl⟩ := guarded_eq_some.mp hs
    have hphase : s.phase = 0 := by simp [State.phase, g]
    exact h.later (by simp [hphase, Event.phase]) (by simp [Event.phase]) le_rfl rfl rfl rfl rfl
      (by simp)
  | createDirError detail =>
    obtain ⟨g, rfl⟩ := guarded_eq_some.mp hs
    have hphase : s.phase = 1 := by simp [State.phase, g]
    exact h.later (by simp [hphase, Event.phase]) (by simp [Event.phase]) le_rfl rfl rfl rfl rfl
      (by simp)
  | settle e =>
    obtain ⟨⟨g, -⟩, rfl⟩ := guarded_eq_some.mp hs
    have hphase : s.phase = 5 := by simp [State.phase, g]
    exact h.later (by simp [hphase, Event.phase]) (by simp [Event.phase]) le_rfl rfl rfl rfl rfl
      (by simp)
  | complete =>
    obtain ⟨⟨g, -⟩, rfl⟩ := guarded_eq_some.mp hs
    have hphase : s.phase = 5 := by simp [State.phase, g]
    exact h.later (by simp [hphase, Event.phase]) (by simp [Event.phase]) le_rfl rfl rfl rfl rfl
      (by simp)
  | forward =>
    obtain ⟨⟨g, -⟩, rfl⟩ := guarded_eq_some.mp hs
    have hphase : s.phase = 5 := by simp [State.phase, g]
    have hpos := List.length_pos_of_ne_nil (h.held g)
    have hreported := h.toChronicle
    rw [hphase] at hreported
    refine ⟨hreported.progress (Nat.le_add_right _ _) ?_, by simp⟩
    dsimp only
    omega
  | writeError detail =>
    obtain ⟨⟨g, -⟩, rfl⟩ := guarded_eq_some.mp hs
    have hnil : s.failures = [] := by simp [State.failures, g]
    have hreported := h.toChronicle
    rw [hnil] at hreported
    exact ⟨hreported.failed, h.held⟩
  | respond =>
    obtain ⟨g, rfl⟩ := guarded_eq_some.mp hs
    have hphase : s.phase = 1 := by simp [State.phase, g]
    have hidle := (hp.deciding (by simp [g, Pc.deciding])).1
    simp only [report, Option.toList_none, List.append_nil]
    refine h.quiet (.inr ⟨rfl, rfl, rfl⟩) (hphase.le.trans (show 1 ≤ 5 by decide)) ?_ (by simp)
    cases hr : s.resuming <;> simp [State.failures, hidle]
  | _ =>
    obtain ⟨g, rfl⟩ := guarded_eq_some.mp hs
    simp only [report, Option.toList_none, List.append_nil]
    apply h.quiet <;> first
      | rfl
      | exact h.held
      | grind [State.phase, State.failures]

/-- Bytes come only after the response. -/
theorem Takes.answered {data : Bytes} {asked : Bool} {i o : List Item} {a : Act}
    (h : Takes data asked i o s)
    (hans : data ≠ [] → asked = true ∧ o = [.response ⟨true, s.resumeOffset⟩])
    (hs : Receiver.step outputDir s a = some t) (hne : data ++ a.payload ≠ []) :
    (asked || a.asks) = true ∧ o ++ sends s a = [.response ⟨true, t.resumeOffset⟩] := by
  have hdata : s.pc.deciding → data = [] := fun hp => (h.deciding hp).1
  cases a with
  | command c =>
    obtain ⟨control, hc, rfl⟩ := Option.map_eq_some_iff.mp hs
    simpa [Act.asks, sends] using hans (by simpa [Act.payload] using hne)
  | read more =>
    obtain ⟨⟨g, -⟩, rfl⟩ := guarded_eq_some.mp hs
    simpa [Act.asks, sends] using h.streaming (.inl (by simp [g, Pc.streaming]))
  | readRequest r =>
    obtain ⟨g, rfl⟩ := guarded_eq_some.mp hs
    exact absurd (hdata (by simp [g, Pc.deciding])) (by simpa [Act.payload] using hne)
  | rejectRespond =>
    obtain ⟨g, rfl⟩ := guarded_eq_some.mp hs
    exact absurd (hdata (by simp [g, Pc.deciding])) (by simpa [Act.payload] using hne)
  | prepare =>
    obtain ⟨g, rfl⟩ := guarded_eq_some.mp hs
    exact absurd (hdata (by simp [g, Pc.deciding])) (by simpa [Act.payload] using hne)
  | respond =>
    obtain ⟨g, rfl⟩ := guarded_eq_some.mp hs
    exact absurd (hdata (by simp [g, Pc.deciding])) (by simpa [Act.payload] using hne)
  | _ =>
    obtain ⟨g, rfl⟩ := guarded_eq_some.mp hs
    simpa [Act.asks, sends] using hans (by simpa [Act.payload] using hne)

end

end Receiver

/-! ### Both functions -/

section

variable (C) (request : TransferRequest) (disk : Disk) (outputDir : Text) (fs : Files)

/-- `send_file_to_peer` with what it may report. -/
def reportingSender : Party (Sender.State C × List (Reporter × Event C)) Sender.Act Item :=
  (sender C request disk).logged fun s a t => (Sender.report request s t a).toList

/-- `handle_incoming_connection` with what it may report. -/
def reportingReceiver : Party (Receiver.State C × List (Reporter × Event C)) Receiver.Act Item :=
  (receiver C outputDir).logged fun s a t => (Receiver.report s t a).toList

def reportingTransfer :
    Machine (Net (Sender.State C × List (Reporter × Event C))
      (Receiver.State C × List (Reporter × Event C)) Item) (Sender.Act ⊕ Receiver.Act) :=
  (reportingSender C request disk).link (reportingReceiver C outputDir)

/-- The first status is reported before the function does anything. -/
def reportingOpening :
    Net (Sender.State C × List (Reporter × Event C))
      (Receiver.State C × List (Reporter × Event C)) Item :=
  ⟨({}, [(.function, .sendStatus .connecting)]), ({ files := fs }, []), [], []⟩

variable {C request disk outputDir fs}

/-- Every run of the two functions is one with reports. -/
theorem reportingTransfer_of_transfer {n : Net (Sender.State C) (Receiver.State C) Item}
    (h : (transfer C request disk outputDir).Reach (fun _ _ => True) (opening C fs) n) :
    ∃ m, (reportingTransfer C request disk outputDir).Reach (fun _ _ => True)
      (reportingOpening C fs) m ∧ m.view Prod.fst Prod.fst = n := by
  have hreach : ((sender C request disk).link (receiver C outputDir)).Reach (fun _ _ => True)
      ((reportingOpening C fs).view Prod.fst Prod.fst) n := h
  exact Shows.reach (logged_shows _ _) (logged_shows _ _) hreach

theorem reportingSender_reports {i o : List Item}
    {s : Sender.State C × List (Reporter × Event C)}
    (h : (reportingSender C request disk).Trace (fun _ _ => True)
      ({}, [(.function, .sendStatus .connecting)]) i o s) :
    Sender.Speaks request s.2 s.1 ∧ Sender.Flow s.1 ∧
      ∃ data asked, Sender.Streams request disk data asked i o s.1 := by
  refine h.invariant
    (I := fun i o s => Sender.Speaks request s.2 s.1 ∧ Sender.Flow s.1 ∧
      ∃ data asked, Sender.Streams request disk data asked i o s.1)
    ⟨.start request, .start, [], false, .start request disk⟩ ?_
  rintro i o s a t ⟨hreports, hflow, data, asked, hst⟩ - hs
  obtain ⟨hstep, hlog⟩ := logged_step.mp hs
  rw [hlog]
  exact ⟨hreports.step hflow hstep, hflow.step hstep, hst.step hstep⟩

theorem reportingReceiver_reports {i o : List Item}
    {r : Receiver.State C × List (Reporter × Event C)}
    (h : (reportingReceiver C outputDir).Trace (fun _ _ => True) ({ files := fs }, []) i o r) :
    Receiver.Speaks r.2 r.1 ∧ ∃ data asked, Receiver.Takes data asked i o r.1 ∧
      (data ≠ [] → asked = true ∧ o = [.response ⟨true, r.1.resumeOffset⟩]) := by
  have hall := h.invariant
    (I := fun i o r => Receiver.Speaks r.2 r.1 ∧ Receiver.Phases outputDir fs r.1 ∧
      ∃ data asked, Receiver.Takes data asked i o r.1 ∧
        (data ≠ [] → asked = true ∧ o = [.response ⟨true, r.1.resumeOffset⟩]))
    ⟨.start fs, .start outputDir fs, [], false, .start fs, by simp⟩ ?_
  · exact ⟨hall.1, hall.2.2⟩
  · rintro i o r a t ⟨hreports, hphases, data, asked, htakes, hans⟩ - hs
    obtain ⟨hstep, hlog⟩ := logged_step.mp hs
    rw [hlog]
    exact ⟨hreports.step hphases hstep, hphases.step hstep, _, _, htakes.step hstep,
      htakes.answered hans hstep⟩

/-- What begins with a request and some bytes is the same request and at least as many bytes. -/
theorem put_append {r r' : TransferRequest} {asked : Bool} {data data' : Bytes}
    {ended ended' : Bool} {rest : List Item}
    (h : Sender.put r asked data ended = Sender.put r' true data' ended' ++ rest) :
    r' = r ∧ data'.length ≤ data.length := by
  have hbytes : ∀ (data' data : Bytes) (last more : List Item), (last = [] ∨ last = [.fin]) →
      data.map Item.byte ++ last = data'.map Item.byte ++ more → data'.length ≤ data.length := by
    intro data'
    induction data' with
    | nil => exact fun data last more _ _ => Nat.zero_le _
    | cons b' data' ih =>
      intro data last more hlast he
      cases data with
      | nil => rcases hlast with rfl | rfl <;> simp at he
      | cons b data =>
        have he' := (List.cons.inj he).2
        exact Nat.succ_le_succ (ih data last more hlast he')
  cases asked with
  | false => cases data <;> cases ended <;> simp [Sender.put] at h
  | true =>
    simp only [Sender.put, if_true, List.append_assoc, List.cons_append,
      List.cons.injEq, Item.request.injEq] at h
    exact ⟨h.1.symm, hbytes data' data _ _ (by cases ended <;> simp) h.2⟩

/-- What is put does not reach beyond the end of the file. -/
theorem Sender.Streams.sent_le {source data : Bytes} {asked : Bool} {i o : List Item}
    {s : Sender.State C} (h : Streams request (Disk.ofFile source) data asked i o s)
    (hpos : 0 < s.sent) : s.startOffset + s.sent ≤ source.length := by
  have hlen := congrArg List.length (h.content source rfl)
  simp only [List.length_append, List.length_drop, h.sent] at hlen
  omega

/-- A sender that is done has put everything. -/
theorem Sender.Streams.sent_eq {source data : Bytes} {asked : Bool} {i o : List Item}
    {s : Sender.State C} (h : Streams request (Disk.ofFile source) data asked i o s)
    (hf : Flow s) {d : C.Digest} (hd : s.result = some (.ok d)) :
    s.startOffset + s.sent = max s.startOffset source.length := by
  obtain ⟨hdone, hchannel, hchunk⟩ := hf.complete d hd
  have hheld := h.waiting (.inr (.inr (.inr hdone)))
  have hlen := congrArg List.length (h.content source rfl)
  have hend := h.exhausted source rfl hdone
  rw [State.transit, hchannel, hchunk, hheld] at hlen
  simp only [List.flatten_nil, List.length_append, List.length_drop, List.length_nil,
    h.sent] at hlen
  omega

/-- What is shown of a transfer. -/
structure Tells (request : TransferRequest) (disk : Disk)
    (n : Net (Sender.State C × List (Reporter × Event C))
      (Receiver.State C × List (Reporter × Event C)) Item)
    (shown shown' : List (Reporter × Event C)) : Prop where
  sent : InOrder n.left.1.startOffset (n.left.1.startOffset + n.left.1.sent) request.fileSize
    (spoken .function shown)
  received : InOrder n.right.1.resumeOffset (n.right.1.resumeOffset + n.right.1.bytesReceived)
    request.fileSize (spoken .function shown')
  behind : ∀ k total, .progress k total ∈ spoken .function shown' →
    k ≤ n.left.1.startOffset + n.left.1.sent
  bounded : ∀ source, disk = Disk.ofFile source → ∀ k total,
    .progress k total ∈ spoken .function shown ∨ .progress k total ∈ spoken .function shown' →
      k ≤ source.length
  once : (spoken .task shown).length ≤ 1 ∧ (spoken .task shown').length ≤ 1
  outcome : n.left.1.pc = .returned → (spoken .function n.left.2).filter (fun e => e.phase = 6) =
    (n.left.1.result.map Sender.outcome).getD []
  done : .sendStatus .done ∈ spoken .function shown → ∀ source, disk = Disk.ofFile source →
    n.left.1.startOffset + n.left.1.sent = max n.left.1.startOffset source.length

/-- **The events of a QUIC transfer.** Whatever fails or is cancelled, and whichever reports are
shown: each function goes through its phases once and in order. Its counts go up, those of the
receiver stay behind the bytes that the sender has put, and neither gets past the end of the file.
The function of the sender ends with the one event of its result, and its `done` comes when
everything up to the end of the file has been put. -/
theorem events_agree {n : Net (Sender.State C × List (Reporter × Event C))
      (Receiver.State C × List (Reporter × Event C)) Item}
    (h : (reportingTransfer C request disk outputDir).Reach (fun _ _ => True)
      (reportingOpening C fs) n)
    {shown shown' : List (Reporter × Event C)} (hshown : shown.Sublist n.left.2)
    (hshown' : shown'.Sublist n.right.2) : Tells request disk n shown shown' := by
  obtain ⟨iL, oL, iR, oR, hl, hr, hout, hin⟩ := Party.link_traces (fun _ _ => True)
    (fun _ _ => True) (fun _ _ _ => trivial) (fun _ _ _ => trivial) h
  obtain ⟨hsender, hflow, data, asked, hst⟩ := reportingSender_reports hl
  obtain ⟨hreceiver, data', asked', htakes, hans⟩ := reportingReceiver_reports hr
  have hsent := hsender.inOrder.sublist (spoken_sublist hshown)
  have hreceived := hreceiver.inOrder.sublist (spoken_sublist hshown')
  -- what the receiver counts has come from this sender, behind the offset it was told
  have hcount : ∀ k total, .progress k total ∈ spoken .function shown' →
      k ≤ n.left.1.startOffset + n.left.1.sent ∧ total = request.fileSize ∧
        0 < n.left.1.sent := by
    intro k total hk
    obtain ⟨hoff, htop, htotal⟩ := hreceived.counts k total hk
    have hcounted := htakes.counted
    have hne : data' ≠ [] := by
      rintro rfl
      rw [List.length_nil] at hcounted
      omega
    obtain ⟨rfl, ho⟩ := hans hne
    have hput : Sender.put request asked data n.left.1.finished =
        Sender.put n.right.1.request true data' (n.right.1.recvResult = .ended) ++ n.toRight := by
      rw [← hst.out, hout, htakes.inp]
    obtain ⟨hrequest, hlength⟩ := put_append hput
    have hpos := List.length_pos_of_ne_nil hne
    have hdata := hst.sent
    have hreader : n.left.1.reader ≠ .idle := by
      intro hidle
      have hzero := (hflow.idle hidle).2
      omega
    have hoffset : n.left.1.startOffset = n.right.1.resumeOffset := by
      rw [hst.accepted hreader, ho] at hin
      simp only [List.cons_append, List.nil_append, List.cons.injEq, Item.response.injEq,
        TransferResponse.mk.injEq, true_and] at hin
      exact hin.1.symm
    refine ⟨by omega, ?_, by omega⟩
    rw [htotal, hrequest]
  refine ⟨hsent, ?_, fun k total hk => (hcount k total hk).1, ?_, ?_, ?_, ?_⟩
  · refine ⟨hreceived.sorted, fun k total hk => ?_⟩
    obtain ⟨hoff, htop, -⟩ := hreceived.counts k total hk
    exact ⟨hoff, htop, (hcount k total hk).2.1⟩
  · rintro source rfl k total (hk | hk)
    · obtain ⟨hoff, htop, -⟩ := hsent.counts k total hk
      exact htop.trans (hst.sent_le (by omega))
    · obtain ⟨hle, -, hpos⟩ := hcount k total hk
      exact hle.trans (hst.sent_le hpos)
  · constructor
    · have hle := (@spoken_sublist C .task _ _ hshown).length_le
      rw [hsender.task] at hle
      refine hle.trans ?_
      unfold Sender.State.failures
      split <;> simp
    · have hle := (@spoken_sublist C .task _ _ hshown').length_le
      rw [hreceiver.task] at hle
      refine hle.trans ?_
      unfold Receiver.State.failures
      split <;> simp
  · intro hpc
    rw [hsender.ending, Sender.State.ending, hpc]
  · rintro hdone source rfl
    have hmem : Event.sendStatus .done ∈ n.left.1.ending := by
      rw [← hsender.ending, List.mem_filter]
      exact ⟨(spoken_sublist hshown).subset hdone, rfl⟩
    obtain ⟨d, hd⟩ := Sender.State.ok_of_done hmem
    exact hst.sent_eq hflow hd

end

/-- Two bytes are sent, and the frontends of both sides are shown everything. -/
theorem events_agree_new :
    ∃ n : Net (Sender.State .plain × List (Reporter × Event .plain))
        (Receiver.State .plain × List (Reporter × Event .plain)) Item,
      spoken .function n.left.2 = [.sendStatus .connecting, .sendStatus .waitingForAccept,
        .sendStatus .accepted, .sendStatus .transferring, .progress 2 2, .sendStatus .done] ∧
      spoken .function n.right.2 = [.incoming sampleRequest, .progress 2 2,
        .final (.complete samplePath [1, 2])] ∧
      Tells sampleRequest (Disk.ofFile [1, 2]) n n.left.2 n.right.2 := by
  obtain ⟨n, hn, hlogs⟩ := Option.map_eq_some_iff.mp
    (show ((reportingTransfer .plain sampleRequest (Disk.ofFile [1, 2]) ['/', 'd']).runUnder
      (fun _ _ => True) (reportingOpening .plain noFiles)
      (runWhole sampleRequest false [1, 2] ++
        [.inl .join, .inl .clearFlag, .inl .clearActive])).map
        (fun n => (spoken .function n.left.2, spoken .function n.right.2)) =
      some ([.sendStatus .connecting, .sendStatus .waitingForAccept,
        .sendStatus .accepted, .sendStatus .transferring, .progress 2 2, .sendStatus .done],
        [.incoming sampleRequest, .progress 2 2, .final (.complete samplePath [1, 2])]) from rfl)
  exact ⟨n, congrArg Prod.fst hlogs, congrArg Prod.snd hlogs,
    events_agree (Machine.reach_of_runUnder _ hn) (List.Sublist.refl _) (List.Sublist.refl _)⟩

end P2PTransfer.Alpn
