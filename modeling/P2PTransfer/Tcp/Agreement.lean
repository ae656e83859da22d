import P2PTransfer.Cli.Delivery
import P2PTransfer.Lan.Soundness
import P2PTransfer.Tcp.SendFile

/-!
# Which senders and receivers of the TCP protocol agree

Three functions send over the tagged protocol and two receive. They share the frames and the
opening, but not what a reply looks like, whether a chunk is acknowledged and who says COMPLETE.
Each is described by its opening, its loop and its success, and every pair is put together.

## Main definitions

- `Speaker`, `Listener`, `Speaker.Agrees` — two sides, and what it means that they agree
- `Exchange`, `Exchange.sender`, `Exchange.receiver` — the inputs, and the five functions on them
- `Exchange.Compatible` — when a pair works

## Main results

- `agrees_iff_compatible` — a pair agrees exactly then
-/

namespace P2PTransfer

open Transition Party

variable {C : Primitives}

namespace Lan

/-- What the sender has taken: nothing until the answer to its COMPLETE frame. -/
structure Sender.Heard (i : List (Frame C)) (s : Sender.State C) : Prop where
  silent : s.pc ≠ .returned → i = [] ∧ s.result = none
  result : ∀ d, s.result = some (.ok d) → ∃ f, i = [f] ∧ f.tag = tagComplete

theorem Sender.Heard.step {disk : Disk} {i : List (Frame C)} {s t : Sender.State C}
    {a : Sender.Act C} (h : Sender.Heard i s) (hs : Sender.step disk s a = some t) :
    Sender.Heard (i ++ (sender C disk).recvs a) t := by
  obtain ⟨h1, h2⟩ := h
  cases a with
  | cancel =>
    obtain rfl := Option.some.inj hs
    simp only [sender, List.append_nil]
    exact ⟨h1, h2⟩
  | reply f =>
    obtain ⟨hp, rfl⟩ := guarded_eq_some.mp hs
    obtain ⟨rfl, -⟩ := h1 (by rw [hp]; simp)
    exact ⟨fun hn => absurd rfl hn, fun d hd =>
      ⟨f, rfl, (Sender.outcome_ok (Option.some.inj hd)).2⟩⟩
  | _ =>
    simp only [Sender.step, sender, List.append_nil, guarded_eq_some] at hs ⊢
    obtain ⟨g, rfl⟩ := hs
    constructor <;> grind -ring -linarith

/-- A sender that succeeds has taken one frame, and it is a COMPLETE. -/
theorem Sender.heard_complete {disk : Disk} {pauses off : Nat} {key : C.Key}
    {m : TransferMetadata C} {ok : Sender.State C → Sender.Act C → Prop} {i o : List (Frame C)}
    {s : Sender.State C}
    (h : (sender C disk).Trace ok (Sender.State.start pauses key m off) i o s) {d : C.Digest}
    (hd : s.result = some (.ok d)) : ∃ f, i = [f] ∧ f.tag = tagComplete := by
  have hheard := h.invariant (I := fun i _ s => Sender.Heard i s)
    ⟨fun _ => ⟨rfl, rfl⟩, fun _ hd => by cases hd⟩ fun _ _ _ _ _ hh _ hs => hh.step hs
  exact hheard.result d hd

/-- `handle_incoming` acknowledges no chunk. -/
theorem Receiver.tag_of_mem {ok : Receiver.State C → Receiver.Act C → Prop}
    {s₀ s : Receiver.State C} {i o : List (Frame C)} (h : (receiver C).Trace ok s₀ i o s)
    {f : Frame C} (hf : f ∈ o) : f.tag ≠ tagChunkAck := by
  revert f
  refine h.invariant (I := fun _ o _ => ∀ {f}, f ∈ o → f.tag ≠ tagChunkAck) (by simp) ?_
  intro i o s a t ih _ _ f hf
  rcases List.mem_append.mp hf with hf | hf
  · exact ih hf
  · cases a with
    | sendComplete =>
      rw [List.mem_singleton.mp hf]
      exact (by decide : tagComplete ≠ tagChunkAck)
    | sendCancel | sendMismatch =>
      rw [List.mem_singleton.mp hf]
      exact (by decide : tagError ≠ tagChunkAck)
    | _ => cases hf

end Lan

namespace Cli

/-- What the receiver puts first is an acknowledgement. -/
structure Receiver.AcksFirst (o : List (Frame C)) (s : Receiver.State C) : Prop where
  head : ∀ f, o.head? = some f → f.tag = tagChunkAck
  verify : s.pc = .verify → o ≠ []

theorem Receiver.AcksFirst.step {o : List (Frame C)} {s t : Receiver.State C} {b : Receiver.Act C}
    (h : Receiver.AcksFirst o s) (hs : Receiver.step s b = some t) :
    Receiver.AcksFirst (o ++ (receiver C).sends s b) t := by
  obtain ⟨h1, h2⟩ := h
  cases b with
  | ack =>
    cases hp : s.pc with
    | ack index =>
      simp only [receiver, hp]
      refine ⟨fun f hf => ?_, fun _ => by simp⟩
      cases o with
      | nil =>
        obtain rfl := Option.some.inj hf
        rfl
      | cons g o => exact h1 f hf
    | _ => simp [Receiver.step, hp] at hs
  | verdict =>
    obtain ⟨⟨hp, -⟩, rfl⟩ := guarded_eq_some.mp hs
    refine ⟨fun f hf => h1 f ?_, by simp⟩
    rwa [List.head?_append_of_ne_nil _ (h2 hp)] at hf
  | ackError detail =>
    simp only [Receiver.step] at hs
    split at hs
    · obtain rfl := Option.some.inj hs
      simp only [receiver, List.append_nil]
      exact ⟨h1, by simp⟩
    · cases hs
  | badFrame | readFailed | joinError | join | verdictLost | flush | flushFailed =>
    obtain ⟨-, rfl⟩ := guarded_eq_some.mp hs
    simp only [receiver, List.append_nil]
    exact ⟨h1, by simp⟩
  | _ =>
    obtain ⟨-, rfl⟩ := guarded_eq_some.mp hs
    simp only [receiver, List.append_nil]
    exact ⟨h1, h2⟩

theorem Receiver.ack_of_head {ok : Receiver.State C → Receiver.Act C → Prop} {key : C.Key}
    {m : TransferMetadata C} {existing : Bytes} {i o : List (Frame C)} {s : Receiver.State C}
    (h : (receiver C).Trace ok (Receiver.State.start key m existing) i o s) {f : Frame C}
    (hf : o.head? = some f) : f.tag = tagChunkAck := by
  have hacks := h.invariant (I := fun _ o s => Receiver.AcksFirst o s) ⟨by simp, by simp [Receiver.State.start]⟩
    fun _ _ _ _ _ hh _ hs => hh.step hs
  exact hacks.head f hf

/-- A sender gets to its verdict by an acknowledgement. -/
structure Sender.Acked (i : List (Frame C)) (s : Sender.State C) : Prop where
  acks : ∀ f ∈ s.acks, f ∈ i ∨ f.tag = tagError
  late : s.pc = .acked ∨ s.pc = .verdict → ∃ f ∈ i, f.tag = tagChunkAck
  result : s.result = some (.ok .verified) → ∃ f ∈ i, f.tag = tagChunkAck

theorem Sender.Acked.step {i : List (Frame C)} {s t : Sender.State C} {a : Sender.Act C}
    (h : Sender.Acked i s) (hs : Sender.step s a = some t) :
    Sender.Acked (i ++ (sender C).recvs a) t := by
  obtain ⟨h1, h2, h3⟩ := h
  cases a with
  | readAck f =>
    obtain ⟨-, rfl⟩ := guarded_eq_some.mp hs
    have hmore : (∃ g ∈ i, g.tag = tagChunkAck) → ∃ g ∈ i ++ [f], g.tag = tagChunkAck := by
      rintro ⟨g, hg, htag⟩
      exact ⟨g, List.mem_append_left _ hg, htag⟩
    refine ⟨fun g hg => ?_, fun hp => hmore (h2 hp), fun hr => hmore (h3 hr)⟩
    rcases List.mem_append.mp hg with hg | hg
    · exact (h1 g hg).imp_left (List.mem_append_left _)
    · rw [List.mem_singleton.mp hg]
      split
      · exact .inr rfl
      · exact .inl (List.mem_append_right _ (List.mem_singleton_self f))
  | hangup | readError detail =>
    obtain ⟨-, rfl⟩ := guarded_eq_some.mp hs
    simp only [sender, List.append_nil]
    refine ⟨fun g hg => ?_, h2, h3⟩
    rcases List.mem_append.mp hg with hg | hg
    · exact h1 g hg
    · rw [List.mem_singleton.mp hg]
      exact .inr rfl
  | ack f =>
    obtain ⟨⟨-, hhead, htag⟩, rfl⟩ := guarded_eq_some.mp hs
    simp only [sender, List.append_nil]
    refine ⟨fun g hg => h1 g (List.mem_of_mem_tail hg), fun _ => ⟨f, ?_, htag⟩, h3⟩
    -- the last item of a reader that has failed is no acknowledgement
    refine (h1 f (List.mem_of_mem_head? hhead)).resolve_right fun herr => ?_
    rw [htag] at herr
    exact absurd herr (by decide)
  | verdict f =>
    obtain ⟨⟨hp, -⟩, rfl⟩ := guarded_eq_some.mp hs
    simp only [sender, List.append_nil]
    exact ⟨fun g hg => h1 g (List.mem_of_mem_tail hg), by simp, fun _ => h2 (.inr hp)⟩
  | spawn =>
    obtain ⟨data, -, rfl⟩ := Option.map_eq_some_iff.mp hs
    simp only [sender, List.append_nil]
    exact ⟨h1, h2, h3⟩
  | pause =>
    obtain rfl := Option.some.inj hs
    simp only [sender, List.append_nil]
    exact ⟨h1, h2, h3⟩
  | badAck f =>
    obtain ⟨-, rfl⟩ := guarded_eq_some.mp hs
    simp only [sender, List.append_nil]
    exact ⟨fun g hg => h1 g (List.mem_of_mem_tail hg), by simp, by simp⟩
  | _ =>
    simp only [Sender.step, sender, List.append_nil, guarded_eq_some] at hs ⊢
    obtain ⟨g, rfl⟩ := hs
    constructor <;> grind -ring -linarith

theorem Sender.Acked.start (x : Job C) : Sender.Acked [] (Sender.State.start x) := by
  constructor <;> simp [Sender.State.start]

theorem Sender.acked_of_verified {x : Job C} {ok : Sender.State C → Sender.Act C → Prop}
    {i o : List (Frame C)} {s : Sender.State C}
    (h : (sender C).Trace ok (Sender.State.start x) i o s)
    (hres : s.result = some (.ok .verified)) : ∃ f ∈ i, f.tag = tagChunkAck := by
  have hacked := h.invariant (I := fun i _ s => Sender.Acked i s)
    (Sender.Acked.start x) fun _ _ _ _ _ hh _ hs => hh.step hs
  exact hacked.result hres

end Cli

/-- A sender of the protocol. -/
structure Speaker (C : Primitives) where
  State : Type
  Act : Type
  opening : Opening C State
  loop : Party State Act (Frame C)
  clean : Act → Prop
  succeeded : State → Prop

/-- A receiver of the protocol. It succeeds with a file. -/
structure Listener (C : Primitives) where
  State : Type
  Act : Type
  admission : Admission C State
  loop : Party State Act (Frame C)
  clean : Act → Prop
  succeeded : State → Bytes → Prop

/-- Both loops have succeeded, and the file of the receiver is the source. -/
def Speaker.Success (S : Speaker C) (R : Listener C) (source : Bytes)
    (n : Net S.State R.State (Frame C)) : Prop :=
  S.succeeded n.left ∧ R.succeeded n.right source

/-- The connection of the two, without faults and with a user who accepts. -/
def Speaker.connect (S : Speaker C) (R : Listener C) :
    Machine (Net (OpenPhase C S.State) (AdmitPhase C R.State) (Frame C))
      (OpenAct C S.Act ⊕ AdmitAct C R.Act) :=
  (S.opening.party S.loop).link (R.admission.party R.loop)

/-- A state from which the connection does not go on is a success: no two sides wait for each
other, and none has failed. -/
def Speaker.Agrees (S : Speaker C) (R : Listener C) (source : Bytes) : Prop :=
  ∀ n, (S.connect R).Reach (eachOk (OpenAct.ok S.clean) (AdmitAct.ok R.clean))
      (Session.start C S.State R.State) n →
    (S.connect R).Stuck (eachOk (OpenAct.ok S.clean) (AdmitAct.ok R.clean)) n →
    Session.Running (S.Success R source) n

/-- The inputs of the two sides of a connection. -/
structure Exchange (C : Primitives) where
  sessionId : Text
  fileName : Text
  outputDir : Text
  source : Bytes
  noncePrefix : Bytes
  secret : C.Secret
  secret' : C.Secret
  fs : Files
  /-- The arguments of `cmd_send`, and what it has found in the store. -/
  chunkSize : Nat
  chunkSize_lt : chunkSize < 2 ^ 64
  resumeOffset : Nat
  level : Int
  likelyCompressed : Bool
  /-- The argument of `send_file_direct_tcp`. -/
  forceRestart : Bool
  /-- How often the users pause. -/
  pauses : Nat
  pauses' : Nat

inductive Client where
  | cmdSend
  | sendFile
  | sendFileDirectTcp
deriving DecidableEq, Repr

inductive Server where
  | receiverHandler
  | handleIncoming
deriving DecidableEq, Repr

namespace Exchange

variable (x : Exchange C)

/-- What `cmd_send` announces, with the key of the connection. -/
def job : Cli.Job C :=
  Cli.transferJob C x.sessionId x.fileName x.source x.noncePrefix x.chunkSize x.resumeOffset
    x.level x.likelyCompressed x.secret x.secret'

def direct : TransferMetadata C :=
  Lan.directMetadata C x.sessionId x.fileName x.source x.noncePrefix x.forceRestart

def sender : Client → Speaker C
  | .cmdSend =>
    { State := Cli.Sender.State C
      Act := Cli.Sender.Act C
      opening := Cli.sendOpening C x.secret x.job.metadata x.source x.level x.likelyCompressed
      loop := Cli.sender C
      clean := fun a => a.clean
      succeeded := fun s => s.result = some (.ok .verified) }
  | .sendFile =>
    { State := Gui.SendFile.State C
      Act := Gui.SendFile.Act C
      opening := Gui.sendFileOpening C x.secret
        (Gui.sendFileMetadata C x.sessionId x.fileName x.source x.noncePrefix) x.source
      loop := Gui.sendFile C
      clean := fun a => a.clean
      succeeded := fun s => s.result = some (.ok ()) }
  | .sendFileDirectTcp =>
    { State := Lan.Sender.State C
      Act := Lan.Sender.Act C
      opening := Lan.directOpening C x.pauses x.secret x.direct
      loop := Lan.sender C (Disk.ofFile x.source)
      clean := fun a => a.clean
      succeeded := fun s => ∃ digest, s.result = some (.ok digest) }

def receiver : Server → Listener C
  | .receiverHandler =>
    { State := Cli.Receiver.State C
      Act := Cli.Receiver.Act C
      admission := Cli.handlerAdmission C x.secret' x.fs x.outputDir
      loop := Cli.receiver C
      clean := fun b => b.clean
      succeeded := fun r source => r.isValid = some true ∧ r.file.content = source }
  | .handleIncoming =>
    { State := Lan.Receiver.State C
      Act := Lan.Receiver.Act C
      admission := Lan.compatAdmission C x.pauses' x.secret' x.fs x.outputDir
      loop := Lan.receiver C
      clean := fun b => b.clean
      succeeded := fun r source => r.result = some (.ok ()) ∧
        r.files (outputPath x.outputDir x.fileName) = some source }

/-- The pairs that were made for each other, where their transfer goes well. -/
def Compatible : Client → Server → Prop
  | .cmdSend, .receiverHandler => Cli.startChunk x.job.metadata = 0 ∧ x.job.Fits ∧
      (x.chunkSize ≤ maxChunkSize ∨ x.source.length ≤ maxChunkSize)
  | .sendFileDirectTcp, .handleIncoming =>
    Lan.ResumesCleanly x.fs (outputPath x.outputDir x.fileName) x.direct x.source
  | _, _ => False

/-- Every run of a pair comes to its end, and with success exactly under a condition. -/
def Settles (S : Speaker C) (R : Listener C) (c : Prop) : Prop :=
  (S.connect R).EndsIn (eachOk (OpenAct.ok S.clean) (AdmitAct.ok R.clean))
    (fun n => Session.Running (S.Success R x.source) n ↔ c) (Session.start C S.State R.State)

variable {x}

theorem feasible_iff : x.job.Feasible ↔ x.Compatible .cmdSend .receiverHandler := by
  have hmin : minChunkSize ≤ maxChunkSize := by decide
  constructor
  · intro h
    refine ⟨h.first, h.toFits, ?_⟩
    have hcap : max minChunkSize (min maxChunkSize (max x.chunkSize minChunkSize)) =
          max x.chunkSize minChunkSize ∨
        x.source.length ≤ max minChunkSize (min maxChunkSize (max x.chunkSize minChunkSize)) ∧
          max minChunkSize (min maxChunkSize (max x.chunkSize minChunkSize)) ≤
            max x.chunkSize minChunkSize := h.partition.chunkSize
    omega
  · rintro ⟨hfirst, hfits, hplaced⟩
    exact ⟨hfits, hfirst, Cli.partition_transferJob hplaced⟩

/-- `cmd_send` to `ReceiverHandler::run`. -/
theorem cmdSend_receiverHandler : x.Settles (x.sender .cmdSend) (x.receiver .receiverHandler)
    (x.Compatible .cmdSend .receiverHandler) := by
  refine Session.endsIn_iff (Cli.sendOpening_start _ _ _ _) ?_
  have hmin : minChunkSize ≤ x.job.metadata.chunkSize := Nat.le_max_right _ _
  have hres : x.job.metadata.isResume = false → Cli.startChunk x.job.metadata = 0 := by
    intro hr
    have hzero : ¬ 0 < x.resumeOffset := of_decide_eq_false hr
    have hoff : x.resumeOffset = 0 := by omega
    simp [job, Cli.transferJob, Cli.startChunk, Cli.sendMetadata, hoff]
  have hcs : x.job.metadata.chunkSize < 2 ^ 64 := max_lt x.chunkSize_lt (by decide)
  have hends := Cli.endsIn_feasible (x := x.job) (Cli.describes_transferJob ..) hmin hcs rfl hres
    ((x.fs (outputPath x.outputDir x.fileName)).getD [])
  exact hends.mono fun n _ _ hn => and_assoc.symm.trans (hn.trans feasible_iff)

/-- `send_file_direct_tcp` to `handle_incoming`. -/
theorem sendFileDirectTcp_handleIncoming (hsize : x.source.length < 2 ^ 64) :
    x.Settles (x.sender .sendFileDirectTcp) (x.receiver .handleIncoming)
      (x.Compatible .sendFileDirectTcp .handleIncoming) :=
  Session.endsIn_iff (Lan.directOpening_start _ _ _ _ _ _ _ _ _ _ _ hsize _)
    (Lan.endsIn_resumesCleanly _ _ _ _ _ _ _ _ _ _ _)

/-- A pair none of whose loops succeeds. -/
theorem settles_of_not {S : Speaker C} {R : Listener C}
    (h : (S.connect R).EndsIn (eachOk (OpenAct.ok S.clean) (AdmitAct.ok R.clean))
      (fun n => ¬ Session.Running (S.Success R x.source) n) (Session.start C S.State R.State)) :
    x.Settles S R False :=
  h.mono fun _ _ _ hn => iff_false_intro hn

/-- The command of the desktop application takes no reply for an acceptance. -/
theorem sendFile_receiverHandler :
    x.Settles (x.sender .sendFile) (x.receiver .receiverHandler) False :=
  settles_of_not (Session.endsIn_rejected
    (Gui.sendFileOpening_start _ _ _ _ _)
    fun _ _ _ hb hs => Cli.Receiver.rank_lower hb hs)

theorem sendFile_handleIncoming :
    x.Settles (x.sender .sendFile) (x.receiver .handleIncoming) False :=
  settles_of_not (Session.endsIn_rejected
    (Gui.sendFileOpening_start _ _ _ _ _)
    fun _ _ _ hb hs => Lan.Receiver.rank_lower hb hs)

/-- The first answer of `ReceiverHandler::run` is no COMPLETE. -/
theorem sendFileDirectTcp_receiverHandler :
    x.Settles (x.sender .sendFileDirectTcp) (x.receiver .receiverHandler) False := by
  have hstart : ∀ key, (Lan.directOpening C x.pauses x.secret x.direct).start key
      ((Cli.handlerAdmission C x.secret' x.fs x.outputDir).reply x.direct) =
        some (Lan.Sender.State.start x.pauses key x.direct 0) := by
    intro key
    have hoff : (Frame.ofText tagMetadata (acceptText 0) : Frame C).offset = some 0 :=
      Frame.offset_acceptText (by decide)
    exact congrArg (Option.map _) hoff
  refine Session.endsIn_iff (hstart _) ?_
  refine (Machine.endsIn_of_rank (P := fun _ => True) (fun _ => True)
    (linkRank (Lan.Sender.State.rank x.source) Cli.Receiver.State.rank Frame.weight)
    (fun _ _ _ _ _ _ => trivial)
    (fun _ _ _ _ ho hs => linkRank_lower (fun _ _ ho hs => Lan.Sender.rank_lower ho hs)
      (fun _ _ ho hs => Cli.Receiver.rank_lower ho hs) ho hs) (fun _ _ _ => trivial) trivial).mono
    fun n hreach _ _ => iff_false_intro ?_
  rintro ⟨⟨digest, hok⟩, -⟩
  obtain ⟨iL, oL, iR, oR, hl, hr, -, hin⟩ := link_traces (fun _ _ => True) (fun _ _ => True)
    (fun _ _ _ => trivial) (fun _ _ _ => trivial) hreach
  obtain ⟨f, rfl, hcomplete⟩ := Lan.Sender.heard_complete hl hok
  have hack := Cli.Receiver.ack_of_head hr (by rw [hin]; rfl)
  rw [hcomplete] at hack
  exact absurd hack (by decide)

/-- `handle_incoming` sends no acknowledgement. -/
theorem cmdSend_handleIncoming :
    x.Settles (x.sender .cmdSend) (x.receiver .handleIncoming) False := by
  cases hacc : ((Lan.compatAdmission C x.pauses' x.secret' x.fs x.outputDir).reply
      x.job.metadata).accepts with
  | false =>
    refine settles_of_not (Session.endsIn_rejected (if_neg ?_)
      fun _ _ _ hb hs => Lan.Receiver.rank_lower hb hs)
    exact Bool.eq_false_iff.mp hacc
  | true =>
    refine Session.endsIn_iff (if_pos hacc) ?_
    refine (Cli.endsIn_true (fun _ _ _ hb hs => Lan.Receiver.rank_lower hb hs) _ _).mono
      fun n hreach _ _ => iff_false_intro ?_
    rintro ⟨hok, -⟩
    obtain ⟨iL, oL, iR, oR, hl, hr, -, hin⟩ := link_traces (fun _ _ => True) (fun _ _ => True)
      (fun _ _ _ => trivial) (fun _ _ _ => trivial) hreach
    obtain ⟨f, hf, hack⟩ := Cli.Sender.acked_of_verified hl hok
    exact Lan.Receiver.tag_of_mem hr (hin ▸ List.mem_append_left _ hf) hack

/-- Every pair comes to its end, and with success exactly where it is compatible. -/
theorem settles (hsize : x.source.length < 2 ^ 64) (c : Client) (s : Server) :
    x.Settles (x.sender c) (x.receiver s) (x.Compatible c s) := by
  cases c with
  | cmdSend => cases s with
    | receiverHandler => exact cmdSend_receiverHandler
    | handleIncoming => exact cmdSend_handleIncoming
  | sendFile => cases s with
    | receiverHandler => exact sendFile_receiverHandler
    | handleIncoming => exact sendFile_handleIncoming
  | sendFileDirectTcp => cases s with
    | receiverHandler => exact sendFileDirectTcp_receiverHandler
    | handleIncoming => exact sendFileDirectTcp_handleIncoming hsize

/-- **Agreement.** A sender and a receiver agree on a file exactly when they are of one family
and their transfer goes well. -/
theorem agrees_iff_compatible (hsize : x.source.length < 2 ^ 64) (c : Client) (s : Server) :
    (x.sender c).Agrees (x.receiver s) x.source ↔ x.Compatible c s :=
  (settles hsize c s).forall_stuck_iff

/-- Two chunks, to a receiver that has no file of the name. -/
def sample : Exchange .plain where
  sessionId := []
  fileName := ['f']
  outputDir := ['/', 'd']
  source := Cli.sampleSource
  noncePrefix := [0, 0, 0, 0]
  secret := Primitives.plainSecret
  secret' := Primitives.plainSecret
  fs := noFiles
  chunkSize := 0
  chunkSize_lt := by decide
  resumeOffset := 0
  level := 0
  likelyCompressed := false
  forceRestart := false
  pauses := 0
  pauses' := 0

/-- The two programs of the command line. -/
theorem cmdSend_agrees :
    (sample.sender .cmdSend).Agrees (sample.receiver .receiverHandler) sample.source := by
  have hsize : sample.source.length < 2 ^ 64 := by
    show Cli.sampleSource.length < 2 ^ 64
    rw [Cli.length_sampleSource]
    decide
  refine (agrees_iff_compatible hsize .cmdSend .receiverHandler).mpr ⟨?_, ?_, .inl (Nat.zero_le _)⟩
  · exact Cli.startChunk_fresh
  · exact Cli.fits_sampleJob 0

/-- The desktop application and the receiver of the command line. -/
theorem sendFile_not_agrees :
    ¬ (sample.sender .sendFile).Agrees (sample.receiver .receiverHandler) sample.source :=
  fun h => sendFile_receiverHandler.forall_stuck_iff.mp h

end Exchange

end P2PTransfer
