import P2PTransfer.Lan.Soundness
import P2PTransfer.Send.Contact

/-!
# What a refusal comes to at the sender

The receiver of a LAN transfer refuses it by an answer, or cancels it later. What the
sender sees of it is the end of the connection, an error of the network, or the one frame
that says so. Its programs read the text of the error and go on to QUIC, or end.

## Main definitions

- `Program`, `Program.ends` — the two programs that send over the LAN first
- `Program.told` — the events of an attempt after which a program ends
- `refusal_final_iff` — a refusal is final exactly when such an event was seen
-/

namespace P2PTransfer

open Transition Party

variable {C : Primitives}

inductive Program where
  | desktop
  | mobile
deriving DecidableEq, Repr

namespace Program

/-- The errors of a LAN attempt after which there is no other attempt. -/
def final : Program → Text → Bool
  | .desktop => desktopLanFinal
  | .mobile => mobileFinal

/-- What the program does with the outcome of a LAN attempt is to return an error. -/
def ends (p : Program) (control : Control) (r : Except Text C.Digest) : Prop :=
  match p with
  | .desktop => ∃ e, Contact.afterLan r = .clearActive (.error e)
  | .mobile => ∃ e, Mobile.afterLan control r = .returned (.error e)

/-- The frame that the receiver sends when its user has cancelled. -/
def cancelFrame : Frame C := Frame.ofText tagError "Transfer cancelled by user".toList

/-- The events after which the program ends: its own cancellation and the frame that says
so, for the mobile application, and any error of the system whose text says that the
transfer was refused. -/
def told (p : Program) : OpenAct C (Lan.Sender.Act C) → Bool
  | .ioError detail | .body (.writeError detail) | .body (.completeError detail)
  | .body (.joinError detail) => p.final detail
  | .body .seeCancel => p = .mobile
  | .body (.reply f) => p = .mobile && f = cancelFrame
  | _ => false

theorem ends_iff {p : Program} {control : Control} {r : Except Text C.Digest} :
    p.ends control r ↔ ∃ e, r = .error e ∧ p.final e := by
  cases p with
  | desktop =>
    cases r with
    | ok d => simp [ends, Contact.afterLan]
    | error e =>
      by_cases h : desktopLanFinal e <;> simp [ends, Contact.afterLan, final, h]
  | mobile =>
    cases r with
    | ok d => simp [ends, Mobile.afterLan]
    | error e =>
      by_cases h : mobileFinal e <;> simp [ends, Mobile.afterLan, final, h]

/-- The attempt has ended, or is about to, with an error after which the program ends. -/
def Told (p : Program) : OpenPhase C (Lan.Sender.State C) → Prop
  | .failed e => p.final e.text
  | .running t => ∃ e, (t.pc = .sendError e ∨ (t.pc = .returned ∧ t.result = some (.error e))) ∧
      p.final e.text
  | _ => False

/-- The frame that says that the file arrived damaged. -/
def mismatchFrame : Frame C := Frame.ofText tagError "Checksum mismatch".toList

/-- What a sender can take from a receiver that only knows these words. -/
def Heard : OpenAct C (Lan.Sender.Act C) → Prop
  | .serverHello f => ∃ k, f = ⟨tagServerHello, .key k⟩
  | .reply f => f.offset ≠ none
  | .body (.reply f) => f = cancelFrame ∨ f = mismatchFrame ∨ f.tag = tagComplete
  | _ => True

theorem final_outcome {p : Program} {s : Lan.Sender.State C} {f : Frame C}
    (hf : f = cancelFrame ∨ f = mismatchFrame ∨ f.tag = tagComplete) :
    (∃ e, s.outcome f = .error e ∧ p.final e.text) ↔ p = .mobile ∧ f = cancelFrame := by
  rcases hf with rfl | rfl | hf
  · have ho : s.outcome cancelFrame = .error (.receiver "Transfer cancelled by user".toList) := rfl
    simp only [ho, Except.error.injEq, exists_eq_left', and_true]
    cases p <;> decide
  · have ho : s.outcome mismatchFrame = .error (.receiver "Checksum mismatch".toList) := rfl
    have hne : (mismatchFrame : Frame C) ≠ cancelFrame := by
      simp [mismatchFrame, cancelFrame, Frame.ofText]
    simp only [ho, Except.error.injEq, exists_eq_left', hne, and_false]
    cases p <;> decide
  · have hne : f ≠ cancelFrame := by
      rintro rfl
      cases hf
    simp only [hne, and_false, iff_false, not_exists, not_and]
    intro e he
    unfold Lan.Sender.State.outcome at he
    split at he
    · obtain rfl := Except.error.inj he
      cases p <;> decide
    · simp [hf, tagError, tagComplete] at he

theorem final_hangup (p : Program) : p.final "Failed to read message length".toList = false := by
  cases p <;> decide

theorem final_cancelled (p : Program) :
    p.final "Transfer cancelled by user".toList = decide (p = .mobile) := by
  cases p <;> decide

theorem told_sendError {p : Program} {t : Lan.Sender.State C} {e : Lan.SendError}
    (h : t.pc = .sendError e) : Told p (.running t) ↔ p.final e.text := by
  simp only [Told, h, Lan.Sender.Pc.sendError.injEq, reduceCtorEq, false_and, or_false,
    exists_eq_left']

theorem told_returned {p : Program} {t : Lan.Sender.State C} (h : t.pc = .returned) :
    Told p (.running t) ↔ ∃ e, t.result = some (.error e) ∧ p.final e.text := by
  simp only [Told, h, reduceCtorEq, true_and, false_or]

theorem not_told {p : Program} {t : Lan.Sender.State C} (hs : ∀ e, t.pc ≠ .sendError e)
    (hr : t.pc ≠ .returned) : ¬ Told p (.running t) := by
  rintro ⟨e, h | ⟨h, -⟩, -⟩
  · exact hs e h
  · exact hr h

theorem told_body {p : Program} {disk : Disk} {s t : Lan.Sender.State C}
    {a : Lan.Sender.Act C} (hs : Lan.Sender.step disk s a = some t) (hh : Heard (.body a)) :
    Told p (.running t) ↔ Told p (.running s) ∨ p.told (.body a) := by
  cases a with
  | cancel =>
    obtain rfl := Option.some.inj hs
    exact ⟨.inl, fun h => h.resolve_right Bool.false_ne_true⟩
  | seeCancel =>
    obtain ⟨⟨g, -⟩, rfl⟩ := guarded_eq_some.mp hs
    have hn : ¬ Told p (.running s) := by
      rcases g with g | g <;> exact not_told (by simp [g]) (by simp [g])
    rw [told_sendError rfl, or_iff_right hn]
    exact Bool.coe_iff_coe.mpr (final_cancelled p)
  | writeError detail =>
    obtain ⟨g, rfl⟩ := guarded_eq_some.mp hs
    rw [told_sendError rfl, or_iff_right (not_told (by simp [g]) (by simp [g]))]
    exact Iff.rfl
  | completeError detail =>
    obtain ⟨g, rfl⟩ := guarded_eq_some.mp hs
    have hn : ¬ Told p (.running s) := by
      rcases g with g | g <;> exact not_told (by simp [g]) (by simp [g])
    rw [told_returned rfl, or_iff_right hn]
    simp only [Option.some.injEq, Except.error.injEq, exists_eq_left']
    exact Iff.rfl
  | joinError detail =>
    obtain ⟨⟨g, -⟩, rfl⟩ := guarded_eq_some.mp hs
    rw [told_returned rfl, or_iff_right (not_told (by simp [g]) (by simp [g]))]
    simp only [Option.some.injEq, Except.error.injEq, exists_eq_left']
    exact Iff.rfl
  | sendError e =>
    obtain ⟨g, rfl⟩ := guarded_eq_some.mp hs
    rw [told_returned rfl, told_sendError g]
    simp only [Option.some.injEq, Except.error.injEq, exists_eq_left', told, Bool.false_eq_true,
      or_false]
  | hangup =>
    obtain ⟨g, rfl⟩ := guarded_eq_some.mp hs
    rw [told_returned rfl, or_iff_right (not_told (by simp [g]) (by simp [g]))]
    simp only [Option.some.injEq, Except.error.injEq, exists_eq_left']
    exact Bool.coe_iff_coe.mpr (final_hangup p)
  | reply f =>
    obtain ⟨g, rfl⟩ := guarded_eq_some.mp hs
    rw [told_returned rfl, or_iff_right (not_told (by simp [g]) (by simp [g]))]
    simp only [Option.some.injEq, told, Bool.and_eq_true, decide_eq_true_eq]
    exact final_outcome hh
  | _ =>
    simp only [Lan.Sender.step, guarded_eq_some] at hs
    obtain ⟨g, rfl⟩ := hs
    first
      | exact ⟨.inl, fun h => h.resolve_right Bool.false_ne_true⟩
      | (refine iff_of_false (not_told (by simp) (by simp)) ?_
         rintro (h | h)
         · exact not_told (by simp [g]) (by simp [g]) h
         · cases h)

theorem told_open {p : Program} {pauses : Nat} {secret : C.Secret} {metadata : TransferMetadata C}
    {disk : Disk} {q q' : OpenPhase C (Lan.Sender.State C)} {a : OpenAct C (Lan.Sender.Act C)}
    (hs : ((Lan.directOpening C pauses secret metadata).party (Lan.sender C disk)).step q a =
      some q') (hh : Heard a) : Told p q' ↔ Told p q ∨ p.told a := by
  cases a with
  | body a =>
    cases q with
    | running s =>
      obtain ⟨t, ht, rfl⟩ := Option.map_eq_some_iff.mp hs
      exact told_body ht hh
    | _ => cases hs
  | serverHello f =>
    obtain ⟨k, rfl⟩ := hh
    cases q <;> cases hs
    simp [Told, told, Opening.hear]
  | reply f =>
    cases q <;> cases hs
    rename_i key
    obtain ⟨offset, ho⟩ := Option.ne_none_iff_exists'.mp hh
    simp [Told, told, Opening.answered, Lan.directOpening, ho, Lan.Sender.State.start]
  | hangup =>
    have hf : ¬ p.final (OpenError.io "Failed to read message length".toList).text :=
      fun h => Bool.false_ne_true ((final_hangup p).symm.trans h)
    cases q <;> cases hs
    · exact iff_of_false hf (by simp [Told, told])
    · exact iff_of_false hf (by simp [Told, told])
  | ioError detail =>
    cases q <;> cases hs
    all_goals exact (or_iff_right id).symm
  | _ =>
    cases q <;> cases hs
    simp [Told, told]

theorem told_of_returns {p : Program} {q : OpenPhase C (Lan.Sender.State C)}
    {r : Except Text C.Digest} (h : Contact.lanReturns q = some r) :
    Told p q ↔ ∃ e, r = .error e ∧ p.final e := by
  cases q with
  | failed e =>
    obtain rfl := Option.some.inj h
    simp only [Told, Except.error.injEq, exists_eq_left']
  | running t =>
    simp only [Contact.lanReturns, Option.ite_none_right_eq_some, Option.map_eq_some_iff] at h
    obtain ⟨hpc, res, hres, rfl⟩ := h
    rw [told_returned hpc, hres]
    cases res with
    | ok d => simp [Except.mapError]
    | error e => simp only [Except.mapError, Option.some.injEq, Except.error.injEq, exists_eq_left']
  | _ => cases h

/-- What a receiver has put on the link, in any run. -/
def Spoken (A : Admission C (Lan.Receiver.State C)) (o : List (Frame C)) :
    AdmitPhase C (Lan.Receiver.State C) → Prop
  | .awaitHello | .hello _ => o = []
  | .awaitMetadata _ | .asking _ _ | .replying _ _ => o = [A.hello]
  | .running _ => ∃ m o', o = A.hello :: A.reply m :: o' ∧
      ∀ g ∈ o', g = cancelFrame ∨ g = mismatchFrame ∨ g.tag = tagComplete
  | .failed _ => o <+: [A.hello]

theorem spoken_trace {A : Admission C (Lan.Receiver.State C)}
    (hA : ∀ f e, A.complaint f e = []) {i o : List (Frame C)}
    {q : AdmitPhase C (Lan.Receiver.State C)}
    (h : (A.party (Lan.receiver C)).Trace (fun _ _ => True) .awaitHello i o q) : Spoken A o q := by
  refine h.invariant (I := fun _ o q => Spoken A o q) rfl ?_
  intro i o q b q' hq _ hs
  have silent : ∀ (tag : UInt8) f e, (if f.tag = tag then [] else A.complaint f e) = [] := by
    intro tag f e
    rw [hA, ite_self]
  cases q with
  | awaitHello =>
    cases hq
    cases b <;> cases hs
    · rename_i f
      rcases A.hear_cases f with ⟨k, rfl, hk⟩ | ⟨e, he⟩
      · exact hk ▸ rfl
      · rw [he]
        exact ⟨[A.hello], by simp only [Admission.party, silent, List.nil_append]⟩
    · exact List.nil_prefix
    · exact List.nil_prefix
  | hello key =>
    cases hq
    cases b <;> cases hs
    · rfl
    · exact List.nil_prefix
  | awaitMetadata key =>
    cases hq
    cases b <;> cases hs
    · rename_i f
      have hsame : [A.hello] ++ (A.party (Lan.receiver C)).sends (.awaitMetadata key)
          (.metadata f) = [A.hello] := by
        simp only [Admission.party, silent, List.append_nil]
      rw [hsame]
      rcases A.announced_cases key f with ⟨m, rfl, hm⟩ | ⟨e, he⟩
      · rw [hm]
        split <;> rfl
      · rw [he]
        exact List.prefix_refl _
    · exact List.prefix_refl _
    · exact List.prefix_refl _
  | asking key m =>
    cases hq
    cases b <;> cases hs
    rename_i accepted
    cases accepted
    · exact List.prefix_refl _
    · rfl
  | replying key m =>
    cases hq
    cases b <;> cases hs
    · exact ⟨m, [], rfl, by simp⟩
    · exact List.prefix_refl _
  | running t =>
    obtain ⟨m, o', rfl, hall⟩ := hq
    cases b with
    | body b =>
      obtain ⟨u, hu, rfl⟩ := Option.map_eq_some_iff.mp hs
      refine ⟨m, o' ++ (Lan.receiver C).sends t b, rfl, fun g hg => ?_⟩
      rcases List.mem_append.mp hg with hg | hg
      · exact hall g hg
      · cases b with
        | sendCancel => exact .inl (List.mem_singleton.mp hg)
        | sendMismatch => exact .inr (.inl (List.mem_singleton.mp hg))
        | sendComplete =>
          rw [List.mem_singleton.mp hg]
          exact .inr (.inr rfl)
        | _ => exact absurd hg List.not_mem_nil
    | _ => cases hs
  | failed e => cases b <;> cases hs

theorem offset_acceptText_ne_none (n : Nat) :
    (Frame.ofText tagMetadata (acceptText n) : Frame C).offset ≠ none := by
  unfold acceptText
  split <;> simp [Frame.offset, Frame.ofText]

theorem Spoken.cases {A : Admission C (Lan.Receiver.State C)} {o : List (Frame C)}
    {q : AdmitPhase C (Lan.Receiver.State C)} (h : Spoken A o q) : o <+: [A.hello] ∨
      ∃ t m o', q = .running t ∧ o = A.hello :: A.reply m :: o' ∧
        ∀ g ∈ o', g = cancelFrame ∨ g = mismatchFrame ∨ g.tag = tagComplete := by
  cases q with
  | running t =>
    obtain ⟨m, o', ho, hall⟩ := h
    exact .inr ⟨t, m, o', rfl, ho, hall⟩
  | failed e => exact .inl h
  | awaitHello =>
    cases h
    exact .inl List.nil_prefix
  | hello key =>
    cases h
    exact .inl List.nil_prefix
  | awaitMetadata key =>
    cases h
    exact .inl (List.prefix_refl _)
  | asking key m =>
    cases h
    exact .inl (List.prefix_refl _)
  | replying key m =>
    cases h
    exact .inl (List.prefix_refl _)

/-- A sender hears only what the receiver says at that point. -/
theorem heard {O : Opening C (Lan.Sender.State C)} {A : Admission C (Lan.Receiver.State C)}
    {disk : Disk} {ok : Lan.Sender.State C → Lan.Sender.Act C → Prop}
    (hreply : ∀ m, (A.reply m).offset ≠ none) {i o o' rest : List (Frame C)}
    {q q' : OpenPhase C (Lan.Sender.State C)} {r : AdmitPhase C (Lan.Receiver.State C)}
    {a : OpenAct C (Lan.Sender.Act C)} (hl : O.History (Lan.sender C disk) ok i o q)
    (hr : Spoken A o' r) (hlink : o' = i ++ ((O.party (Lan.sender C disk)).recvs a ++ rest))
    (hs : (O.party (Lan.sender C disk)).step q a = some q') : Heard a := by
  have hcases := hr.cases
  cases a with
  | serverHello f =>
    cases q <;> cases hs
    obtain ⟨rfl, -⟩ := hl
    obtain rfl : o' = f :: rest := hlink
    rcases hcases with ⟨l, hp⟩ | ⟨_, _, _, _, hp, _⟩
    · exact ⟨_, (List.cons.inj hp).1⟩
    · exact ⟨_, (List.cons.inj hp).1⟩
  | reply f =>
    cases q <;> cases hs
    obtain ⟨k, -, rfl, -⟩ := hl
    rcases hcases with hp | ⟨_, m, _, _, hp, _⟩
    · have hlen := hp.length_le
      simp only [hlink, Opening.party, List.length_append, List.length_cons, List.length_nil]
        at hlen
      omega
    · rw [hlink] at hp
      obtain rfl : f = A.reply m := (List.cons.inj (List.cons.inj hp).2).1
      exact hreply m
  | body a =>
    cases a with
    | reply f =>
      cases q with
      | running s =>
        obtain ⟨k, g, s₀, i', -, -, -, rfl, -⟩ := hl
        rcases hcases with hp | ⟨_, m, o'', _, hp, hall⟩
        · have hlen := hp.length_le
          simp only [hlink, List.length_append, List.length_cons, List.length_nil] at hlen
          omega
        · rw [hlink] at hp
          have htail : i' ++ ([f] ++ rest) = o'' := (List.cons.inj (List.cons.inj hp).2).2
          exact hall f (by rw [← htail]; simp)
      | _ => cases hs
    | _ => trivial
  | _ => trivial

/-- An event of the attempt, seen from the sender. -/
def tells (p : Program) : OpenAct C (Lan.Sender.Act C) ⊕ AdmitAct C (Lan.Receiver.Act C) → Bool
  | .inl a => p.told a
  | .inr _ => false

end Program

/-- One attempt over the LAN: `send_file_direct_tcp` with `tcp_compat::handle_incoming`. -/
def lanAttempt (C : Primitives) (pauses pauses' : Nat) (secret secret' : C.Secret)
    (metadata : TransferMetadata C) (disk : Disk) (fs : Files) (outputDir : Text) :
    Machine (Net (OpenPhase C (Lan.Sender.State C)) (AdmitPhase C (Lan.Receiver.State C)) (Frame C))
      (OpenAct C (Lan.Sender.Act C) ⊕ AdmitAct C (Lan.Receiver.Act C)) :=
  ((Lan.directOpening C pauses secret metadata).party (Lan.sender C disk)).link
    ((Lan.compatAdmission C pauses' secret' fs outputDir).party (Lan.receiver C))

section Attempt

variable {pauses pauses' : Nat} {secret secret' : C.Secret} {metadata : TransferMetadata C}
  {disk : Disk} {fs : Files} {outputDir : Text}
  {n n' : Net (OpenPhase C (Lan.Sender.State C)) (AdmitPhase C (Lan.Receiver.State C)) (Frame C)}

/-- The histories of the two parties of an attempt. -/
theorem attempt_histories
    (h : (lanAttempt C pauses pauses' secret secret' metadata disk fs outputDir).Reach
      (fun _ _ => True) (Session.start C _ _) n) :
    ∃ i o o', (Lan.directOpening C pauses secret metadata).History (Lan.sender C disk)
        (fun _ _ => True) i o n.left ∧
      Program.Spoken (Lan.compatAdmission C pauses' secret' fs outputDir) o' n.right ∧
      o' = i ++ n.toLeft := by
  obtain ⟨iL, oL, iR, oR, hl, hr, -, hin⟩ := link_traces (fun _ _ => True)
    (fun _ _ => True) (fun _ _ _ => trivial) (fun _ _ _ => trivial) h
  exact ⟨iL, oL, oR, Opening.trace_history _ (fun _ _ _ => trivial) hl,
    Program.spoken_trace (fun _ _ => rfl) hr, hin⟩

theorem told_step {p : Program}
    {a : OpenAct C (Lan.Sender.Act C) ⊕ AdmitAct C (Lan.Receiver.Act C)}
    (h : (lanAttempt C pauses pauses' secret secret' metadata disk fs outputDir).Reach
      (fun _ _ => True) (Session.start C _ _) n)
    (hs : (lanAttempt C pauses pauses' secret secret' metadata disk fs outputDir).step n a =
      some n') : p.Told n'.left ↔ p.Told n.left ∨ p.tells a := by
  cases a with
  | inl a =>
    obtain ⟨i, o, o', hl, hr, hlink⟩ := attempt_histories h
    obtain ⟨q, rest, hstep, hq, -, rfl⟩ := link_inl.mp hs
    have hheard := Program.heard (fun m => Program.offset_acceptText_ne_none _) hl hr
      (hlink.trans (by rw [hq])) hstep
    exact Program.told_open hstep hheard
  | inr b =>
    obtain ⟨t, rest, -, -, -, rfl⟩ := link_inr.mp hs
    exact (or_iff_left Bool.false_ne_true).symm

/-- At the end of a run a sender has been told what it was told in one of its steps. -/
theorem told_run {p : Program}
    {as : List (OpenAct C (Lan.Sender.Act C) ⊕ AdmitAct C (Lan.Receiver.Act C))}
    (h : (lanAttempt C pauses pauses' secret secret' metadata disk fs outputDir).Reach
      (fun _ _ => True) (Session.start C _ _) n)
    (hrun : (lanAttempt C pauses pauses' secret secret' metadata disk fs outputDir).run n as =
      some n') : p.Told n'.left ↔ p.Told n.left ∨ ∃ a ∈ as, p.tells a := by
  induction as generalizing n with
  | nil =>
    obtain rfl := Option.some.inj hrun
    simp
  | cons a as ih =>
    obtain ⟨u, hu, hr⟩ := Option.bind_eq_some_iff.mp hrun
    rw [ih (h.tail trivial hu) hr, told_step h hu]
    simp only [List.mem_cons, exists_eq_or_imp, or_assoc]

theorem running_step {a : OpenAct C (Lan.Sender.Act C) ⊕ AdmitAct C (Lan.Receiver.Act C)}
    (hs : (lanAttempt C pauses pauses' secret secret' metadata disk fs outputDir).step n a =
      some n')
    (h : (∃ s, n.left = .running s) ∨ ∃ b, a = .inl (.body b)) : ∃ s, n'.left = .running s := by
  cases a with
  | inl a =>
    obtain ⟨q, rest, hstep, -, -, rfl⟩ := link_inl.mp hs
    cases a with
    | body b =>
      cases hq : n.left with
      | running s =>
        rw [hq] at hstep
        obtain ⟨t, -, rfl⟩ := Option.map_eq_some_iff.mp hstep
        exact ⟨t, rfl⟩
      | _ =>
        rw [hq] at hstep
        cases hstep
    | _ =>
      rcases h with ⟨s, hq⟩ | ⟨b, hb⟩
      · rw [hq] at hstep
        cases hstep
      · cases hb
  | inr b =>
    obtain ⟨t, rest, -, -, -, rfl⟩ := link_inr.mp hs
    rcases h with h | ⟨b, hb⟩
    · exact h
    · cases hb

/-- A loop that has begun is not left again. -/
theorem running_run
    {as : List (OpenAct C (Lan.Sender.Act C) ⊕ AdmitAct C (Lan.Receiver.Act C))}
    (hrun : (lanAttempt C pauses pauses' secret secret' metadata disk fs outputDir).run n as =
      some n')
    (h : (∃ s, n.left = .running s) ∨ ∃ a, .inl (.body a) ∈ as) : ∃ s, n'.left = .running s := by
  induction as generalizing n with
  | nil =>
    obtain rfl := Option.some.inj hrun
    simpa using h
  | cons a as ih =>
    obtain ⟨u, hu, hr⟩ := Option.bind_eq_some_iff.mp hrun
    apply ih hr
    rcases h with h | ⟨b, hb⟩
    · exact .inl (running_step hu (.inl h))
    · rcases List.mem_cons.mp hb with rfl | hb
      · exact .inl (running_step hu (.inr ⟨b, rfl⟩))
      · exact .inr ⟨b, hb⟩

/-- After a no, the loop of the sender has not begun. -/
theorem not_running_of_rejected
    (h : (lanAttempt C pauses pauses' secret secret' metadata disk fs outputDir).Reach
      (fun _ _ => True) (Session.start C _ _) n) (hno : n.right = .failed .rejected) :
    ¬ ∃ s, n.left = .running s := by
  rintro ⟨s, hs⟩
  obtain ⟨i, o, o', hl, hr, hlink⟩ := attempt_histories h
  rw [hs] at hl
  obtain ⟨k, f, s₀, i', o'', -, -, rfl, -⟩ := hl
  rw [hno] at hr
  have hlen := List.IsPrefix.length_le hr
  simp only [hlink, List.length_append, List.length_cons, List.length_nil] at hlen
  omega

end Attempt

/-- After a no of the receiving user, the sending program ends with an error exactly when an
error of the system says that the transfer was refused, and after a cancellation exactly
when it was told of it. -/
theorem refusal_final_iff (C : Primitives) (pauses pauses' : Nat) (secret secret' : C.Secret)
    (metadata : TransferMetadata C) (disk : Disk) (fs : Files) (outputDir : Text) (p : Program)
    (control : Control)
    {as : List (OpenAct C (Lan.Sender.Act C) ⊕ AdmitAct C (Lan.Receiver.Act C))}
    {n : Net (OpenPhase C (Lan.Sender.State C)) (AdmitPhase C (Lan.Receiver.State C)) (Frame C)}
    {r : Except Text C.Digest}
    (hrun : (lanAttempt C pauses pauses' secret secret' metadata disk fs outputDir).run
      (Session.start C _ _) as = some n)
    (hr : Contact.lanReturns n.left = some r) :
    (n.right = .failed .rejected →
      (p.ends control r ↔ ∃ detail, .inl (.ioError detail) ∈ as ∧ p.final detail)) ∧
    (∀ t, n.right = .running t → t.cancelled →
      (p.ends control r ↔ ∃ a ∈ as, p.tells a)) := by
  have htold : p.ends control r ↔ ∃ a ∈ as, p.tells a := by
    rw [Program.ends_iff, ← Program.told_of_returns hr, told_run .refl hrun]
    exact or_iff_right id
  refine ⟨fun hno => htold.trans ⟨?_, ?_⟩, fun _ _ _ => htold⟩
  · rintro ⟨a, ha, htells⟩
    have hnot := not_running_of_rejected (Machine.reach_of_run (fun _ _ _ => trivial) hrun) hno
    cases a with
    | inl a =>
      cases a with
      | ioError detail => exact ⟨detail, ha, htells⟩
      | body b => exact absurd (running_run hrun (.inr ⟨b, ha⟩)) hnot
      | _ => cases htells
    | inr b => cases htells
  · rintro ⟨detail, ha, hf⟩
    exact ⟨_, ha, hf⟩

namespace Program

/-- The attempts of an empty file. -/
def sampleAttempt : Machine (Net (OpenPhase .plain (Lan.Sender.State .plain))
      (AdmitPhase .plain (Lan.Receiver.State .plain)) (Frame .plain))
    (OpenAct .plain (Lan.Sender.Act .plain) ⊕ AdmitAct .plain (Lan.Receiver.Act .plain)) :=
  lanAttempt .plain 0 0 Primitives.plainSecret Primitives.plainSecret sampleMetadata
    (Disk.ofFile []) noFiles []

def asked : List (OpenAct .plain (Lan.Sender.Act .plain) ⊕
    AdmitAct .plain (Lan.Receiver.Act .plain)) :=
  [.inl .hello, .inr (.clientHello ⟨tagClientHello, .key ()⟩), .inr .hello,
    .inl (.serverHello ⟨tagServerHello, .key ()⟩), .inl .metadata,
    .inr (.metadata ⟨tagMetadata, .metadata sampleMetadata⟩)]

/-- The user says no, and the connection closes. -/
def saysNo : List (OpenAct .plain (Lan.Sender.Act .plain) ⊕
    AdmitAct .plain (Lan.Receiver.Act .plain)) :=
  asked ++ [.inr (.answer false), .inl .hangup]

/-- The user accepts and then cancels, and the sender reads the frame that says so. -/
def cancelsLater : List (OpenAct .plain (Lan.Sender.Act .plain) ⊕
    AdmitAct .plain (Lan.Receiver.Act .plain)) :=
  asked ++
  ([.inr (.answer true), .inr .reply, .inl (.reply (Frame.ofText tagMetadata (acceptText 0)))] :
    List (OpenAct .plain (Lan.Sender.Act .plain) ⊕ AdmitAct .plain (Lan.Receiver.Act .plain))) ++
  ([.seek, .endOfFile, .proceed, .endOfData, .join, .sendComplete] :
    List (Lan.Sender.Act .plain)).map (.inl ∘ .body) ++
  ([.cancel, .seeCancel, .close, .sendCancel] : List (Lan.Receiver.Act .plain)).map
    (.inr ∘ .body) ++
  ([.inl (.body (.reply cancelFrame))] :
    List (OpenAct .plain (Lan.Sender.Act .plain) ⊕ AdmitAct .plain (Lan.Receiver.Act .plain)))

/-- The mobile application ends when it reads that the user has cancelled. -/
theorem cancelled_final :
    ∃ n r, sampleAttempt.run (Session.start .plain _ _) cancelsLater = some n ∧
    Contact.lanReturns n.left = some r ∧ Program.mobile.ends {} r := by
  obtain ⟨n, hn, he⟩ := Option.map_eq_some_iff.mp
    (show (sampleAttempt.run (Session.start .plain _ _) cancelsLater).map (fun n =>
      (Contact.lanReturns n.left, n.right.loop.map fun t => t.cancelled)) =
      some (some (.error "Receiver error: Transfer cancelled by user".toList), some true) from rfl)
  simp only [Prod.mk.injEq] at he
  obtain ⟨hr, ht⟩ := he
  have h := (refusal_final_iff .plain 0 0 Primitives.plainSecret Primitives.plainSecret
    sampleMetadata (Disk.ofFile []) noFiles [] .mobile {} hn hr).2
  obtain ⟨t, hp, hcancelled⟩ := Option.map_eq_some_iff.mp ht
  exact ⟨n, _, hn, hr, (h t (AdmitPhase.loop_eq_some.mp hp) hcancelled).mpr
    ⟨.inl (.body (.reply cancelFrame)), by simp [cancelsLater], by decide⟩⟩

/-- After a no, both programs go on to their next attempt, and after a cancellation that
the sender was told of, the desktop application does. -/
theorem refused_goes_on :
    (∃ n r, sampleAttempt.run (Session.start .plain _ _) saysNo = some n ∧
      Contact.lanReturns n.left = some r ∧ Contact.afterLan r = .choose ∧
      Mobile.afterLan {} r = .quic {}) ∧
    ∃ n r, sampleAttempt.run (Session.start .plain _ _) cancelsLater = some n ∧
      Contact.lanReturns n.left = some r ∧ Contact.afterLan r = .choose := by
  constructor
  · obtain ⟨n, hn, he⟩ := Option.map_eq_some_iff.mp
      (show (sampleAttempt.run (Session.start .plain _ _) saysNo).map (fun n =>
        Contact.lanReturns n.left) =
        some (some (.error "Failed to read message length".toList)) from rfl)
    exact ⟨n, _, hn, he, rfl, rfl⟩
  · obtain ⟨n, hn, he⟩ := Option.map_eq_some_iff.mp
      (show (sampleAttempt.run (Session.start .plain _ _) cancelsLater).map (fun n =>
        Contact.lanReturns n.left) =
        some (some (.error "Receiver error: Transfer cancelled by user".toList)) from rfl)
    exact ⟨n, _, hn, he, rfl⟩

end Program

end P2PTransfer
