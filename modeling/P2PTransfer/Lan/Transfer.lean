import P2PTransfer.Lan.Receiver

/-!
# A transfer on the LAN

`send_file_direct_tcp` against `tcp_compat::handle_incoming`. In a run without faults
and cancellation both functions come to their end, and the receiver compares what its
file held before, extended by the source from the announced offset on, with the
checksum of the source.

## Main definitions

- `delivered` — both functions succeeded and the file is the source
- `Settings`, `Agree` — what is fixed by the opening, and the joint invariant
-/

namespace P2PTransfer.Lan

open Transition Party

variable {C : Primitives}

/-- The sender has taken the COMPLETE frame, the receiver has sent it, and the file is
the source. -/
def delivered (path : Path) (source : Bytes)
    (n : Net (Sender.State C) (Receiver.State C) (Frame C)) : Prop :=
  (∃ digest, n.left.result = some (.ok digest)) ∧ n.right.result = some (.ok ()) ∧
    n.right.files path = some source

/-- What the opening of a connection settles for both sides. -/
structure Settings (C : Primitives) where
  source : Bytes
  fs : Files
  key : C.Key
  metadata : TransferMetadata C
  offset : Nat
  path : Path
  resuming : Bool

namespace Settings

variable (x : Settings C)

/-- What the output file is made to hold. -/
def content : Bytes :=
  (if x.resuming then (x.fs x.path).getD [] else []) ++ x.source.drop x.offset

/-- The number of the first block. -/
def first : Nat := x.offset / lanBlockSize

/-- What is known of the sender by its history. -/
def Sends (i o : List (Frame C)) (s : Sender.State C) : Prop :=
  (∃ ds sent, Sender.Streams x.source ds sent i o s) ∧ Sender.Undisturbed i s ∧
    s.key = x.key ∧ s.noncePrefix = x.metadata.noncePrefix ∧ s.startOffset = x.offset

/-- What is known of the receiver by its history. -/
def Receives (i o : List (Frame C)) (s : Receiver.State C) : Prop :=
  (∃ ws qs, Receiver.Stores x.fs x.first ws qs i s) ∧ Receiver.Undisturbed s ∧
    Receiver.Replies o s ∧ s.key = x.key ∧ s.metadata = x.metadata ∧ s.path = x.path ∧
    s.resuming = x.resuming

def Agree : Net (Sender.State C) (Receiver.State C) (Frame C) → Prop :=
  Linked x.Sends x.Receives

variable {x} {iL oL iR oR rest : List (Frame C)} {s : Sender.State C} {r : Receiver.State C}

/-- A block fits into one frame. -/
theorem not_oversized (k : Nat) (key : C.Key) (nonce : Nonce) {d : Bytes}
    (hd : d.length ≤ lanBlockSize) :
    (Frame.ofChunk k false (C.encrypt key nonce d) : Frame C).oversized = false := by
  simp only [Frame.oversized, Frame.size, Frame.ofChunk, C.encrypt_length, decide_eq_false_iff_not]
  unfold lanBlockSize at hd
  unfold tagLen maxPayloadSize
  omega

/-- What the receiver takes next is the next block or the end. -/
theorem next_frame (hs : x.Sends iL oL s) (hlink : oL = iR ++ rest) {ws qs : List Bytes}
    (hst : Receiver.Stores x.fs x.first ws qs iR r) (hr : x.Receives iR oR r)
    (hash : r.receivedHash = none) {f : Frame C} {fs : List (Frame C)} (hf : rest = f :: fs) :
    (∃ d, d.length ≤ lanBlockSize ∧
      f = Frame.ofChunk (x.first + ws.length + qs.length) false (C.encrypt r.key
        (buildNonce r.metadata.noncePrefix (x.first + ws.length + qs.length)) d)) ∨
      ∃ d, f = ⟨tagComplete, .hex d⟩ := by
  obtain ⟨⟨ds, sent, hstr⟩, -, hkey, hpre, hoff⟩ := hs
  obtain ⟨-, -, -, hkey', hm, -⟩ := hr
  have hpipe := hstr.pipe
  rw [hkey, hpre, hoff] at hpipe
  obtain ⟨ds', ds'', rfl, hsent⟩ := frames_split hpipe
  have hin := hst.input
  rw [hkey', hm, Receiver.State.ending, hash] at hin
  have hall : frames x.key x.metadata.noncePrefix x.first ds' ++ s.closing =
      frames x.key x.metadata.noncePrefix x.first (ws ++ qs) ++ f :: fs := by
    rw [← hf]
    calc frames x.key x.metadata.noncePrefix x.first ds' ++ s.closing
        = sent ++ s.closing := by rw [hsent]; rfl
      _ = iR ++ rest := by rw [← hstr.out, hlink]
      _ = _ := by rw [hin]; simp
  have hclosing : ∀ g ∈ s.closing, g = ⟨tagComplete, .hex (C.blake3 s.hashed)⟩ := fun g hg => by
    unfold Sender.State.closing at hg
    split at hg
    · exact List.mem_singleton.mp hg
    · simp at hg
  rcases frames_next (fun g hg => by rw [hclosing g hg]) hall with ⟨d, es, hds, rfl⟩ | ⟨-, hc⟩
  · refine .inl ⟨d, hstr.blocks d (by simp [hds]), ?_⟩
    rw [hkey', hm, List.length_append, Nat.add_assoc]
  · exact .inr ⟨_, hclosing f (by simp [hc])⟩

/-- A sender that has put its end leaves something to take. -/
theorem not_drained (hs : x.Sends iL oL s) (hr : x.Receives iR oR r) (hc : s.pc.completed)
    (hash : r.receivedHash = none) : oL ≠ iR := by
  intro heq
  obtain ⟨⟨ds, sent, hstr⟩, -, hkey, hpre, hoff⟩ := hs
  obtain ⟨⟨ws, qs, hst⟩, -⟩ := hr
  have hout := hstr.out
  have hin := hst.input
  rw [Sender.State.closing, if_pos hc] at hout
  rw [Receiver.State.ending, hash] at hin
  have hmem : (⟨tagComplete, .hex (C.blake3 s.hashed)⟩ : Frame C) ∈ iR := by
    rw [← heq, hout]
    simp
  rw [hin] at hmem
  simp [frames, Frame.ofChunk, tagComplete, tagChunk] at hmem

theorem Sends.step {a : Sender.Act C} {t : Sender.State C} (h : x.Sends iL oL s) (ha : a.smooth)
    (hs : Sender.step (Disk.ofFile x.source) s a = some t) :
    x.Sends (iL ++ (sender C (Disk.ofFile x.source)).recvs a)
      (oL ++ (sender C (Disk.ofFile x.source)).sends s a) t := by
  obtain ⟨⟨ds, sent, hstr⟩, hu, hkey, hpre, hoff⟩ := h
  obtain ⟨h1, h2, h3⟩ := Sender.step_const hs
  have hclean : a.clean := by
    cases a with
    | hangup => rfl
    | _ => exact ha
  exact ⟨⟨_, _, hstr.step hu hclean hs⟩, hu.step hstr.input ha hs, h1.trans hkey, h2.trans hpre,
    h3.trans hoff⟩

/-- A receiver that is through has answered. -/
theorem answered (hr : x.Receives iR oR r) (hc : (receiver C).closed r) : oR ≠ [] := by
  obtain ⟨-, -, hrep, -⟩ := hr
  rcases hrep.returned (by simpa [receiver] using hc) with ⟨-, ho⟩ | ⟨-, -, p, -, ho⟩ <;> simp [ho]

/-- The sender never sees the stream end early. -/
theorem smooth_of_sends {a : Sender.Act C} {t : Sender.State C} (hs : x.Sends iL oL s)
    (hr : x.Receives iR oR r) (hin : oR = iL ++ rest) (ha : a.clean)
    (hh : (sender C (Disk.ofFile x.source)).hangup a → rest = [] ∧ (receiver C).closed r)
    (hstep : Sender.step (Disk.ofFile x.source) s a = some t) : a.smooth := by
  cases a with
  | hangup =>
    obtain ⟨hrest, hclosed⟩ := hh rfl
    simp only [Sender.step, guarded_eq_some] at hstep
    obtain ⟨⟨ds, sent, hstr⟩, -⟩ := hs
    have hnil : iL = [] := hstr.input (by simp [hstep.1])
    exact absurd (by rw [hin, hnil, hrest, List.append_nil]) (answered hr hclosed)
  | _ => exact ha

/-- The receiver meets nothing but the blocks and their end. -/
theorem smooth_of_receives {b : Receiver.Act C} {t : Receiver.State C} (hs : x.Sends iL oL s)
    (hr : x.Receives iR oR r) (hout : oL = iR ++ rest) (hb : b.clean)
    (hq : (receiver C).recvs b <+: rest)
    (hh : (receiver C).hangup b → rest = [] ∧ (sender C (Disk.ofFile x.source)).closed s)
    (hstep : Receiver.step r b = some t) : b.smooth := by
  obtain ⟨⟨ws, qs, hst⟩, hu, -⟩ := id hr
  cases b with
  | other f =>
    simp only [Receiver.step, guarded_eq_some] at hstep
    obtain ⟨⟨g, hdata, hend⟩, -⟩ := hstep
    obtain ⟨fs, hfs⟩ := hq
    have hash := hu.hash.mpr (by simp [g, Receiver.Pc.looping])
    rcases next_frame hs hout hst hr hash hfs.symm with ⟨d, hd, rfl⟩ | ⟨d, rfl⟩
    · have hfit := not_oversized (x.first + ws.length + qs.length) r.key
        (buildNonce r.metadata.noncePrefix (x.first + ws.length + qs.length)) hd
      simp [Receiver.chunkData, Frame.ofChunk] at hdata
      simp [Frame.ofChunk, hdata] at hfit
    · simp [Frame.oversized, Frame.size] at hend
  | hangup =>
    simp only [Receiver.step, guarded_eq_some] at hstep
    obtain ⟨hrest, hclosed⟩ := hh rfl
    have hpc : s.pc = .returned := by simpa [sender] using hclosed
    refine absurd ?_ (not_drained hs hr (by simp [hpc, Sender.Pc.completed])
      (hu.hash.mpr (by simp [hstep.1, Receiver.Pc.looping])))
    rw [hout, hrest, List.append_nil]
  | decryptError index data =>
    simp only [Receiver.step, guarded_eq_some] at hstep
    obtain ⟨⟨-, hhead, hdec⟩, -⟩ := hstep
    obtain ⟨tail, htail⟩ := List.head?_eq_some_iff.mp hhead
    have hqueue := hst.queue
    cases qs with
    | nil => simp [htail, sealed] at hqueue
    | cons d qs =>
      simp only [htail, sealed, List.cons_append, List.cons.injEq, Prod.mk.injEq] at hqueue
      obtain ⟨⟨rfl, rfl⟩, -⟩ := hqueue
      simp [C.decrypt_encrypt] at hdec
  | _ => exact hb

theorem Receives.step {b : Receiver.Act C} {t : Receiver.State C} (hs : x.Sends iL oL s)
    (hr : x.Receives iR oR r) (hout : oL = iR ++ rest) (hb : b.smooth)
    (hq : (receiver C).recvs b <+: rest) (hstep : Receiver.step r b = some t) :
    x.Receives (iR ++ (receiver C).recvs b) (oR ++ (receiver C).sends r b) t := by
  obtain ⟨⟨ws, qs, hst⟩, hu, hrep, hkey, hm, hp, hres⟩ := id hr
  obtain ⟨h1, h2, h3, h4⟩ := Receiver.step_const hstep
  refine ⟨hst.step hu hrep hb (fun f hf => ?_) hstep, hu.step hb hstep, hrep.step hu hb hstep,
    h1.trans hkey, h2.trans hm, h3.trans hp, h4.trans hres⟩
  -- only two actions take a frame, and both while the loop reads
  have hread : (receiver C).recvs b = [f] ∧ r.pc = .read := by
    cases b with
    | chunk g data =>
      obtain rfl := List.mem_singleton.mp hf
      exact ⟨rfl, (guarded_eq_some.mp hstep).1.1⟩
    | complete g =>
      obtain rfl := List.mem_singleton.mp hf
      exact ⟨rfl, (guarded_eq_some.mp hstep).1.1⟩
    | other g => cases hb
    | _ => simp [receiver] at hf
  obtain ⟨fs, hfs⟩ := hq
  rw [hread.1] at hfs
  have hash := hu.hash.mpr (by simp [hread.2, Receiver.Pc.looping])
  rcases next_frame hs hout hst hr hash hfs.symm with ⟨d, -, hf'⟩ | ⟨d, hf'⟩
  · exact .inl ⟨d, hf'⟩
  · exact .inr (by rw [hf'])

/-- The joint invariant. -/
theorem agree_step {n n' : Net (Sender.State C) (Receiver.State C) (Frame C)}
    {a : Sender.Act C ⊕ Receiver.Act C} (h : x.Agree n)
    (hok : eachOk (fun a : Sender.Act C => a.clean = true)
      (fun b : Receiver.Act C => b.clean = true) n a)
    (hstep : ((sender C (Disk.ofFile x.source)).link (receiver C)).step n a = some n') :
    x.Agree n' := by
  refine Linked.step h hstep ?_ ?_
  · rintro iL oL iR oR a s rfl hs hr hout hin hh hl
    exact hs.step (smooth_of_sends hs hr hin hok hh hl) hl
  · rintro iL oL iR oR b t rfl hs hr hout hin hh hl
    have hq : (receiver C).recvs b <+: n.toRight := by
      obtain ⟨t, rest, -, hrest, -⟩ := link_inr.mp hstep
      exact ⟨rest, hrest.symm⟩
    exact Receives.step hs hr hout (smooth_of_receives hs hr hout hok hq hh hl) hq hl

/-- Where both sides are through, every block and the end have been taken. -/
theorem all_taken (hs : x.Sends iL oL s) (hr : x.Receives iR oR r)
    (hout : oL = iR ++ rest) (hl : s.pc = .returned) (hc : r.pc = .returned) :
    ∃ ws d, Receiver.Stores x.fs x.first ws [] iR r ∧ ws.flatten = x.source.drop x.offset ∧
      r.receivedHash = some (.hex d) := by
  obtain ⟨⟨ds, sent, hstr⟩, hu, hkey, hpre, hoff⟩ := hs
  obtain ⟨⟨ws, qs, hst⟩, hu', -, hkey', hm, -⟩ := hr
  obtain ⟨hreader, hchannel⟩ := hu.tail (by simp [hl, Sender.Pc.tail])
  have hheld := hstr.held.mpr (by simp [hreader])
  have hwire := hu.wire.mpr (by simp [hl])
  have hsent : sent = frames x.key x.metadata.noncePrefix x.first ds := by
    have hpipe := hstr.pipe
    rw [Sender.State.transit, hheld, hwire, hchannel, hkey, hpre, hoff] at hpipe
    simpa [first] using hpipe
  obtain ⟨rfl, -⟩ := hst.done (hu'.late (by simp [hc, Receiver.Pc.late]))
  obtain ⟨p, hp⟩ := Option.ne_none_iff_exists'.mp fun hn => by
    have := hu'.hash.mp hn
    simp [hc, Receiver.Pc.looping] at this
  have hin := hst.input
  rw [hkey', hm, List.append_nil, Receiver.State.ending, hp] at hin
  have hall : frames x.key x.metadata.noncePrefix x.first ds ++ s.closing =
      frames x.key x.metadata.noncePrefix x.first ws ++ ⟨tagComplete, p⟩ :: rest := by
    rw [← hsent, ← hstr.out, hout, hin]
    simp
  have hclosing : s.closing = [⟨tagComplete, .hex (C.blake3 s.hashed)⟩] := by
    simp [Sender.State.closing, hl, Sender.Pc.completed]
  rcases frames_next (by simp [hclosing]) hall with ⟨d, es, -, hf⟩ | ⟨rfl, hc⟩
  · have htag := congrArg Frame.tag hf
    simp [Frame.ofChunk, tagChunk, tagComplete] at htag
  · have hend := List.drop_eq_nil_of_le (hstr.done hreader)
    have hdata := hstr.data
    rw [hend, List.append_nil, hoff] at hdata
    rw [hclosing] at hc
    simp only [List.cons.injEq, Frame.mk.injEq, true_and] at hc
    exact ⟨ds, _, hst, hdata.symm, by rw [hp, ← hc.1]⟩

/-- The receiver compares the content with the checksum. -/
theorem content_of_closed (hs : x.Sends iL oL s) (hr : x.Receives iR oR r)
    (hout : oL = iR ++ rest) (hl : s.pc = .returned) (hc : r.pc = .returned) :
    (r.result = some (.ok ()) ∧ r.files x.path = some x.content) ∨
      (r.result = some (.error .mismatch) ∧ C.blake3 x.content ≠ x.metadata.checksum) := by
  obtain ⟨ws, d, hst, hws, -⟩ := all_taken hs hr hout hl hc
  obtain ⟨-, hu, hrep, -, hm, hpath, hres⟩ := hr
  obtain ⟨-, hfile, hbad⟩ := hst.done (hu.late (by simp [hc, Receiver.Pc.late]))
  have hall : r.base x.fs ++ ws.flatten = x.content := by
    rw [content, hws, Receiver.State.base, hres, hpath]
  rw [hall, hpath] at hfile
  rw [hall, hm] at hbad
  rcases hrep.returned hc with ⟨hr, -⟩ | ⟨hr, -⟩
  · exact .inr ⟨hr, hbad hr⟩
  · exact .inl ⟨hr, hfile (by simp [hr])⟩

/-- The sender succeeds when the receiver does. -/
theorem sender_ok (hs : x.Sends iL oL s) (hr : x.Receives iR oR r) (hout : oL = iR ++ rest)
    {rest' : List (Frame C)} (hin : oR = iL ++ rest') (hl : s.pc = .returned)
    (hc : r.pc = .returned) (hok : r.result = some (.ok ())) :
    ∃ digest, s.result = some (.ok digest) := by
  obtain ⟨ws, d, -, -, hd⟩ := all_taken hs hr hout hl hc
  obtain ⟨f, hf, hres⟩ := hs.2.1.returned hl
  obtain ⟨-, -, hrep, -⟩ := hr
  rcases hrep.returned hc with ⟨hbad, -⟩ | ⟨-, -, p, hp, ho⟩
  · simp [hok] at hbad
  · rw [ho, hf] at hin
    obtain ⟨rfl, -⟩ := List.cons.inj hin
    obtain rfl : p = .hex d := Option.some.inj (hp.symm.trans hd)
    exact ⟨C.blake3 s.hashed, hres⟩

/-- The pair does not stop before both sides are through. -/
theorem closed_of_stuck {n : Net (Sender.State C) (Receiver.State C) (Frame C)} (h : x.Agree n)
    (stuck : ((sender C (Disk.ofFile x.source)).link (receiver C)).Stuck
      (eachOk (fun a : Sender.Act C => a.clean) (fun b : Receiver.Act C => b.clean)) n) :
    n.left.pc = .returned ∧ n.right.pc = .returned := by
  obtain ⟨iL, oL, iR, oR, hs, hr, hout, hin⟩ := h
  obtain ⟨ds, sent, hstr⟩ := hs.1
  rcases stuck_cases (Sender.stands hstr hs.2.1) (Receiver.stands hr.2.1) stuck with
    ⟨hl, hc⟩ | ⟨hwl, hwr, hempty, -⟩
  · exact ⟨by simpa [sender] using hl, by simpa [receiver] using hc⟩
  · -- a waiting sender has put its end, and a waiting receiver has not taken it
    exfalso
    have hpc : n.left.pc = .awaitComplete := by
      obtain ⟨a, t, -, hrec, -, hstep⟩ := hwl.takes ⟨tagComplete, .text []⟩
      cases a with
      | reply f => exact (guarded_eq_some.mp hstep).1
      | _ => simp [sender] at hrec
    have hpc' : n.right.pc = .read := by
      obtain ⟨b, t, -, hrec, -, hstep⟩ := hwr.takes ⟨tagComplete, .text []⟩
      cases b with
      | chunk f data => exact (guarded_eq_some.mp hstep).1.1
      | complete f => exact (guarded_eq_some.mp hstep).1.1
      | other f => exact (guarded_eq_some.mp hstep).1.1
      | _ => simp [receiver] at hrec
    refine not_drained hs hr (by simp [hpc, Sender.Pc.completed])
      (hr.2.1.hash.mpr (by simp [hpc', Receiver.Pc.looping])) ?_
    rw [hout, hempty, List.append_nil]

/-- **Delivery.** Both loops come to their end, and they deliver the source exactly when
that is what the receiver makes its file hold. -/
theorem endsIn_content {n : Net (Sender.State C) (Receiver.State C) (Frame C)} (h : x.Agree n)
    (hsum : x.metadata.checksum = C.blake3 x.source) :
    ((sender C (Disk.ofFile x.source)).link (receiver C)).EndsIn
      (eachOk (fun a : Sender.Act C => a.clean) (fun b : Receiver.Act C => b.clean))
      (fun n => delivered x.path x.source n ↔ x.content = x.source) n := by
  refine Machine.endsIn_of_rank x.Agree
    (linkRank (Sender.State.rank x.source) Receiver.State.rank Frame.weight)
    (fun n a n' hn ho hs => agree_step hn ho hs)
    (fun n a n' _ ho hs => linkRank_lower (fun _ _ ho hs => Sender.rank_lower ho hs)
      (fun _ _ ho hs => Receiver.rank_lower ho hs) ho hs) (fun n hn stuck => ?_) h
  obtain ⟨hl, hc⟩ := closed_of_stuck hn stuck
  obtain ⟨iL, oL, iR, oR, hs, hr, hout, hin⟩ := hn
  rcases content_of_closed hs hr hout hl hc with ⟨hok, hfile⟩ | ⟨hbad, hne⟩
  · simp [delivered, hok, hfile, sender_ok hs hr hout hin hl hc hok]
  · refine ⟨fun hd => ?_, fun heq => absurd (by rw [heq, hsum]) hne⟩
    simp [hd.2.1] at hbad

/-- What is settled by an accepted offer. -/
def ofOffer (source : Bytes) (fs : Files) (outputDir : Text) (key : C.Key)
    (metadata : TransferMetadata C) : Settings C where
  source := source
  fs := fs
  key := key
  metadata := metadata
  offset := (TcpCompat.resume fs (outputPath outputDir metadata.fileName) metadata).1
  path := outputPath outputDir metadata.fileName
  resuming := (TcpCompat.resume fs (outputPath outputDir metadata.fileName) metadata).2

theorem agree_start (source : Bytes) (fs : Files) (outputDir : Text) (key : C.Key)
    (metadata : TransferMetadata C) (pauses pauses' : Nat) :
    (ofOffer source fs outputDir key metadata).Agree
      ⟨Sender.State.start pauses key metadata
          (TcpCompat.resume fs (outputPath outputDir metadata.fileName) metadata).1,
        Receiver.State.start pauses' fs outputDir key metadata, [], []⟩ :=
  Linked.start
    ⟨⟨[], [], Sender.Streams.start source pauses key metadata _⟩,
      Sender.Undisturbed.start pauses key metadata _, rfl, rfl, rfl⟩
    ⟨⟨[], [], Receiver.Stores.start pauses' fs outputDir key metadata⟩,
      Receiver.Undisturbed.start pauses' fs outputDir key metadata,
      Receiver.Replies.start pauses' fs outputDir key metadata, rfl, rfl, rfl, rfl⟩

end Settings

/-- What `send_file_direct_tcp` announces. -/
def directMetadata (C : Primitives) (sessionId fileName : Text) (source noncePrefix : Bytes)
    (forceRestart : Bool) : TransferMetadata C :=
  { createMetadata C sessionId fileName source lanBlockSize forceRestart with
    noncePrefix := noncePrefix }

/-- The receiver starts anew, or what it holds is a prefix of the source of a whole
number of blocks. -/
def ResumesCleanly (fs : Files) (path : Path) (metadata : TransferMetadata C) (source : Bytes) :
    Prop :=
  (TcpCompat.resume fs path metadata).2 →
    lanBlockSize ∣ fs.len path ∧ (fs path).getD [] <+: source

theorem content_eq_iff (source : Bytes) (fs : Files) (outputDir : Text) (key : C.Key)
    (metadata : TransferMetadata C) :
    (Settings.ofOffer source fs outputDir key metadata).content = source ↔
      ResumesCleanly fs (outputPath outputDir metadata.fileName) metadata source := by
  unfold Settings.content Settings.ofOffer ResumesCleanly TcpCompat.resume lanResume
  dsimp only
  split
  · rw [if_pos rfl, Files.len, append_rounded_eq_iff]
    simp
  · simp

theorem resume_lt (fs : Files) (path : Path) (metadata : TransferMetadata C)
    (h : metadata.fileSize < 2 ^ 64) : (TcpCompat.resume fs path metadata).1 < 2 ^ 64 := by
  unfold TcpCompat.resume lanResume
  dsimp only
  split
  · next hres =>
    simp only [Bool.and_eq_true, decide_eq_true_eq] at hres
    have := Nat.div_mul_le_self (fs.len path) lanBlockSize
    omega
  · simp

section Session

variable (C) (sessionId fileName outputDir : Text) (noncePrefix : Bytes) (forceRestart : Bool)
  (secret secret' : C.Secret) (pauses pauses' : Nat) (fs : Files)

/-- `send_file_direct_tcp` takes every reply of `handle_incoming` for an acceptance. -/
theorem directOpening_start {source : Bytes} (hsize : source.length < 2 ^ 64) (key : C.Key) :
    (directOpening C pauses secret
      (directMetadata C sessionId fileName source noncePrefix forceRestart)).start key
        ((compatAdmission C pauses' secret' fs outputDir).reply
          (directMetadata C sessionId fileName source noncePrefix forceRestart)) =
      some (Sender.State.start pauses key
        (directMetadata C sessionId fileName source noncePrefix forceRestart)
        (TcpCompat.resume fs (outputPath outputDir fileName)
          (directMetadata C sessionId fileName source noncePrefix forceRestart)).1) := by
  have hoff : ((compatAdmission C pauses' secret' fs outputDir).reply
      (directMetadata C sessionId fileName source noncePrefix forceRestart)).offset =
      some (TcpCompat.resume fs (outputPath outputDir fileName)
        (directMetadata C sessionId fileName source noncePrefix forceRestart)).1 :=
    Frame.offset_acceptText (resume_lt fs _ _ hsize)
  simp [directOpening, hoff]

/-- The loops after the reply deliver the source exactly when they resume cleanly. -/
theorem endsIn_resumesCleanly (source : Bytes) (key : C.Key) :
    ((sender C (Disk.ofFile source)).link (receiver C)).EndsIn
      (eachOk (fun a : Sender.Act C => a.clean) (fun b : Receiver.Act C => b.clean))
      (fun n => delivered (outputPath outputDir fileName) source n ↔
        ResumesCleanly fs (outputPath outputDir fileName)
          (directMetadata C sessionId fileName source noncePrefix forceRestart) source)
      ⟨Sender.State.start pauses key
          (directMetadata C sessionId fileName source noncePrefix forceRestart)
          (TcpCompat.resume fs (outputPath outputDir fileName)
            (directMetadata C sessionId fileName source noncePrefix forceRestart)).1,
        Receiver.State.start pauses' fs outputDir key
          (directMetadata C sessionId fileName source noncePrefix forceRestart), [], []⟩ := by
  have hagree := Settings.agree_start source fs outputDir key
    (directMetadata C sessionId fileName source noncePrefix forceRestart) pauses pauses'
  exact (Settings.endsIn_content hagree rfl).mono fun n _ _ hn =>
    hn.trans (content_eq_iff source fs outputDir key _)

/-- The runs of an accepted transfer without faults and cancellation end with the file
delivered. -/
def Succeeds (source : Bytes) : Prop :=
  Session.EndsIn
    (directOpening C pauses secret
      (directMetadata C sessionId fileName source noncePrefix forceRestart))
    (compatAdmission C pauses' secret' fs outputDir)
    (sender C (Disk.ofFile source)) (receiver C) (fun a => a.clean) (fun b => b.clean)
    (delivered (outputPath outputDir fileName) source) (Session.start C _ _)

theorem succeeds_iff_resumesCleanly {source : Bytes} (hsize : source.length < 2 ^ 64) :
    Succeeds C sessionId fileName outputDir noncePrefix forceRestart secret secret' pauses pauses'
        fs source ↔
      ResumesCleanly fs (outputPath outputDir fileName)
        (directMetadata C sessionId fileName source noncePrefix forceRestart) source := by
  unfold Succeeds
  rw [Session.endsIn_start (directOpening_start _ _ _ _ _ _ _ _ _ _ _ hsize _)]
  exact (endsIn_resumesCleanly _ _ _ _ _ _ _ _ _ _ _).iff

variable {C fs}

/-- **Resume on the LAN.** From a strict and non-empty part of the source a transfer
succeeds exactly when the part is a whole number of blocks. -/
theorem succeeds_iff_dvd {source existing : Bytes} (hsize : source.length < 2 ^ 64)
    (hex : fs (outputPath outputDir fileName) = some existing) (hne : existing ≠ [])
    (hpre : existing <+: source) (hstrict : existing ≠ source) :
    Succeeds C sessionId fileName outputDir noncePrefix false secret secret' pauses pauses' fs
      source ↔ lanBlockSize ∣ existing.length := by
  rw [succeeds_iff_resumesCleanly _ _ _ _ _ _ _ _ _ _ _ hsize]
  have hlt : existing.length < source.length :=
    lt_of_le_of_ne hpre.length_le fun he => hstrict (hpre.eq_of_length he)
  have hpos := List.length_pos_iff.mpr hne
  have hres : (TcpCompat.resume fs (outputPath outputDir fileName)
      (directMetadata C sessionId fileName source noncePrefix false)).2 = true := by
    simp [TcpCompat.resume, lanResume, Files.len, hex, directMetadata, createMetadata, hlt, hpos]
  simp [ResumesCleanly, hres, Files.len, hex, hpre]

end Session

def sampleName : Text := ['f']

def sampleDir : Text := ['/', 'd']

/-- One block is there, and one byte is missing. -/
theorem succeeds_after_block :
    Succeeds .plain [] sampleName sampleDir [0, 0, 0, 0] false Primitives.plainSecret
      Primitives.plainSecret 0 0
      (noFiles.set (outputPath sampleDir sampleName) (some (List.replicate lanBlockSize 0)))
      (List.replicate lanBlockSize 0 ++ [1]) :=
  (succeeds_iff_dvd [] sampleName sampleDir [0, 0, 0, 0] Primitives.plainSecret
    Primitives.plainSecret 0 0
    (by rw [List.length_append, List.length_replicate]; decide)
    (Files.set_self _ _ _)
    (by rw [Ne, List.replicate_eq_nil_iff]; decide)
    (List.prefix_append _ _)
    (by rw [Ne, List.self_eq_append_right]; decide)).mpr
      ⟨1, by rw [List.length_replicate, Nat.mul_one]⟩

/-- One byte of two is there: the source is appended to it as a whole. -/
theorem not_succeeds_after_byte :
    ¬ Succeeds .plain [] sampleName sampleDir [0, 0, 0, 0] false Primitives.plainSecret
      Primitives.plainSecret 0 0
      (noFiles.set (outputPath sampleDir sampleName) (some [1])) [1, 2] := by
  intro h
  have hclean := (succeeds_iff_resumesCleanly _ _ _ _ _ _ _ _ _ _ _ (by decide)).mp h
  have hdvd := (hclean (by decide)).1
  rw [Files.len, Files.set_self] at hdvd
  exact absurd hdvd (by decide)

end P2PTransfer.Lan
