import P2PTransfer.Alpn.Receiver

/-!
# A QUIC transfer

The sender and the receiver on one stream. When the receiver reports a complete
transfer, its file is what it held before, extended by the source from the
rounded offset on; and it has counted exactly the bytes that were on the stream
when the stream was ended.

## Main definitions

- `transfer`, `opening` — the linked pair and its first state
- `undisturbed`, `sound` — runs without faults and cancellation, and runs in which the
  sender reads its source to the end and only `finish()` ends the stream
- `ResumesCleanly` — when what the receiver holds fits the rounded offset
-/

namespace P2PTransfer.Alpn

open Transition

variable (C : Primitives)

/-- The machine of the two functions. That the connection is closed when `send_file_to_peer` returns
is left out: the link may still deliver what the sender has put on it. -/
def transfer (request : TransferRequest) (disk : Disk) (outputDir : Text) :
    Machine (Net (Sender.State C) (Receiver.State C) Item) (Sender.Act ⊕ Receiver.Act) :=
  (sender C request disk).link (receiver C outputDir)

/-- Both at their start, over the files of the receiver. -/
def opening (fs : Files) : Net (Sender.State C) (Receiver.State C) Item :=
  ⟨{}, { files := fs }, [], []⟩

variable {C}

/-- Nothing fails and nobody rejects or cancels. -/
def undisturbed (_ : Net (Sender.State C) (Receiver.State C) Item) :
    Sender.Act ⊕ Receiver.Act → Prop
  | .inl a => a.benign
  | .inr a => a.benign

instance (n : Net (Sender.State C) (Receiver.State C) Item) (a : Sender.Act ⊕ Receiver.Act) :
    Decidable (undisturbed n a) := by
  cases a <;> (unfold undisturbed; infer_instance)

/-- The sender's reader does not fail, and only `finish()` ends the stream. -/
def sound (_ : Net (Sender.State C) (Receiver.State C) Item) :
    Sender.Act ⊕ Receiver.Act → Prop
  | .inl a => a.sound
  | .inr _ => True

instance (n : Net (Sender.State C) (Receiver.State C) Item) (a : Sender.Act ⊕ Receiver.Act) :
    Decidable (sound n a) := by
  cases a <;> (unfold sound; infer_instance)

/-- A run from the accepted response to the report, with the actions of the reader
task in the middle. -/
def runWith (request : TransferRequest) (offset : Nat) (resumed : Bool)
    (reading : List Sender.Act) (writing receiving storing : List (Sender.Act ⊕ Receiver.Act)) :
    List (Sender.Act ⊕ Receiver.Act) :=
  ([.inl .connect, .inl .activate, .inl .register, .inl .writeRequest,
    .inr (.readRequest request), .inr .activate, .inr .register, .inr (.answer true),
    .inr .prepare, .inr .respond, .inl (.accepted offset)] : List (Sender.Act ⊕ Receiver.Act)) ++
  reading.map .inl ++ writing ++
  ([.inl .getFlag, .inl .proceed, .inl .endOfData, .inl .finish,
    .inr (if resumed then .openAppend else .createFile)] : List (Sender.Act ⊕ Receiver.Act)) ++
  receiving ++
  ([.inr .getFlag, .inr .proceed, .inr .endOfStream, .inr .close] :
    List (Sender.Act ⊕ Receiver.Act)) ++ storing ++
  ([.inr .flush, .inr .join, .inr .clearFlag, .inr .complete] : List (Sender.Act ⊕ Receiver.Act))

/-- The whole of a small file in one piece. -/
def runWhole (request : TransferRequest) (resumed : Bool) (data : Bytes) :
    List (Sender.Act ⊕ Receiver.Act) :=
  runWith request 0 resumed [.seek, .read data, .sendChunk, .endOfFile]
    [.inl .getFlag, .inl .proceed, .inl (.dequeue data), .inl .writeRest]
    [.inr .getFlag, .inr .proceed, .inr (.read data), .inr .forward]
    [.inr (.writeChunk data)]

def sampleRequest : TransferRequest := ⟨['r'], ['f'], 2, false⟩

def samplePath : Path := Path.ofString ['/', 'd', '/', 'f']

/-- One byte of the two of the source. -/
def partialFile : Files := noFiles.set samplePath (some [1])

/-- Two contents of the stream that agree up to the end of the second agree. -/
theorem put_eq_put {r r' : TransferRequest} {asked : Bool} {data data' : Bytes} {ended : Bool}
    {rest : List Item}
    (h : Sender.put r asked data ended = Sender.put r' true data' true ++ rest) :
    asked = true ∧ r = r' ∧ data = data' ∧ ended = true ∧ rest = [] := by
  have hbytes : ∀ (data data' : Bytes) (last : List Item), (last = [] ∨ last = [.fin]) →
      data.map Item.byte ++ last = data'.map Item.byte ++ [.fin] ++ rest →
      data = data' ∧ last = [.fin] ∧ rest = [] := by
    intro data
    induction data with
    | nil =>
      rintro (_ | ⟨b, data'⟩) last (rfl | rfl) he <;> simp_all
    | cons b data ih =>
      rintro (_ | ⟨b', data'⟩) last hl he
      · simp at he
      · simp only [List.map_cons, List.cons_append, List.cons.injEq, Item.byte.injEq] at he
        obtain ⟨rfl, he⟩ := he
        obtain ⟨rfl, hl', hr⟩ := ih data' last hl (by simpa using he)
        exact ⟨rfl, hl', hr⟩
  cases asked with
  | false =>
    cases data <;> cases ended <;> simp [Sender.put] at h
  | true =>
    simp only [Sender.put, if_true, List.append_assoc, List.cons_append,
      List.cons.injEq, Item.request.injEq] at h
    obtain ⟨rfl, h⟩ := h
    obtain ⟨hd, hl, hr⟩ := hbytes data data' (if ended then [.fin] else [])
      (by cases ended <;> simp) (by simpa using h)
    refine ⟨rfl, rfl, hd, ?_, hr⟩
    cases ended with
    | true => rfl
    | false => simp at hl

section

variable {request : TransferRequest} {disk : Disk} {outputDir : Text} {fs : Files}

/-- The history of a sender. -/
theorem sender_streams {ok : Sender.State C → Sender.Act → Prop} {i o : List Item}
    {s : Sender.State C} (h : (sender C request disk).Trace ok {} i o s) :
    ∃ data asked, Sender.Streams request disk data asked i o s := by
  refine h.invariant (I := fun i o s => ∃ data asked, Sender.Streams request disk data asked i o s)
    ⟨[], false, Sender.Streams.start request disk⟩ ?_
  rintro i o s a t ⟨data, asked, hst⟩ - hs
  exact hst.step hs

/-- The history of a receiver. -/
theorem receiver_stores {ok : Receiver.State C → Receiver.Act → Prop} {i o : List Item}
    {s : Receiver.State C} (h : (receiver C outputDir).Trace ok { files := fs } i o s) :
    ∃ data asked, Receiver.Takes data asked i o s ∧ Receiver.Phases outputDir fs s ∧
      Receiver.Stores fs data s := by
  refine h.invariant
    (I := fun i o s => ∃ data asked, Receiver.Takes data asked i o s ∧
      Receiver.Phases outputDir fs s ∧ Receiver.Stores fs data s)
    ⟨[], false, Receiver.Takes.start fs, Receiver.Phases.start outputDir fs,
      Receiver.Stores.start fs⟩ ?_
  rintro i o s a t ⟨data, asked, ht, hp, hst⟩ - hs
  exact ⟨_, _, ht.step hs, hp.step hs, hst.step hp ht hs⟩

/-- What the two functions have in common once the receiver reports completion. -/
structure Completed (request : TransferRequest) (disk : Disk) (outputDir : Text) (fs : Files)
    (iL oL : List Item) (data : Bytes) (n : Net (Sender.State C) (Receiver.State C) Item) :
    Prop where
  streams : Sender.Streams request disk data true iL oL n.left
  ended : n.left.finished
  sameRequest : n.right.request = request
  phases : Receiver.Phases outputDir fs n.right
  stores : Receiver.Stores fs data n.right
  streamEnded : n.right.recvResult = .ended
  received : n.right.bytesReceived = n.left.sent
  answers : iL ++ n.toLeft = [.response ⟨true, n.right.resumeOffset⟩]

theorem completed_of_event {ok : Net (Sender.State C) (Receiver.State C) Item →
      Sender.Act ⊕ Receiver.Act → Prop} (okL : Sender.State C → Sender.Act → Prop)
    (hok : ∀ n a, ok n (.inl a) → okL n.left a)
    {n : Net (Sender.State C) (Receiver.State C) Item}
    (h : (transfer C request disk outputDir).Reach ok (opening C fs) n) {p : Path} {d : C.Digest}
    (he : n.right.event = some (.complete p d)) :
    ∃ iL oL data, (sender C request disk).Trace okL {} iL oL n.left ∧
      Completed request disk outputDir fs iL oL data n := by
  obtain ⟨iL, oL, iR, oR, hl, hr, hout, hin⟩ :=
    Party.link_traces okL (fun _ _ => True) hok (fun _ _ _ => trivial) h
  obtain ⟨data, asked, hs⟩ := sender_streams hl
  obtain ⟨data', asked', ht, hp, hst⟩ := receiver_stores hr
  have hend := ht.event p d he
  obtain ⟨rfl, ho⟩ := ht.streaming (.inr hend)
  have hput : Sender.put request asked data n.left.finished =
      Sender.put n.right.request true data' true ++ n.toRight := by
    rw [← hs.out, hout, ht.inp, hend]
    rfl
  obtain ⟨rfl, hreq, rfl, hfin, -⟩ := put_eq_put hput
  have hheld : n.right.held = [] := ht.held (.inr (.inr (.inr hend)))
  refine ⟨iL, oL, data, hl, hs, hfin, hreq.symm, hp, hst, hend, ?_, hin ▸ ho⟩
  rw [← hs.sent, ht.counted, hheld, List.length_nil, Nat.add_zero]

/-- An accepted sender was told the offset of the receiver. -/
theorem Completed.startOffset_eq {iL oL : List Item} {data : Bytes}
    {n : Net (Sender.State C) (Receiver.State C) Item}
    (h : Completed request disk outputDir fs iL oL data n) (hr : n.left.reader ≠ .idle) :
    n.left.startOffset = n.right.resumeOffset := by
  have hi := h.answers
  rw [h.streams.accepted hr] at hi
  simp only [List.cons_append, List.nil_append, List.cons.injEq, Item.response.injEq,
    TransferResponse.mk.injEq, true_and] at hi
  exact hi.1

/-- What an undisturbed sender has put when the receiver reports completion. -/
theorem data_eq_of_complete {source : Bytes} {n : Net (Sender.State C) (Receiver.State C) Item}
    (h : (transfer C request (Disk.ofFile source) outputDir).Reach undisturbed (opening C fs) n)
    {p : Path} {d : C.Digest} (he : n.right.event = some (.complete p d)) :
    n.right.files p = some (n.right.base fs ++ source.drop n.right.resumeOffset) ∧
      d = C.blake3 ((n.right.base fs).take n.right.resumeOffset ++
        source.drop n.right.resumeOffset) ∧
      Receiver.Phases outputDir fs n.right ∧ n.right.writer = .done ∧
      n.right.request = request := by
  obtain ⟨iL, oL, data, hl, hc⟩ := completed_of_event (fun _ a => a.benign)
    (fun _ _ hok => hok) h he
  have hu : Sender.Undisturbed iL n.left := by
    have hboth := hl.invariant
      (I := fun i o s => (∃ data asked, Sender.Streams request (Disk.ofFile source) data asked i o s)
        ∧ Sender.Undisturbed i s)
      ⟨⟨[], false, Sender.Streams.start _ _⟩, Sender.Undisturbed.start⟩ (by
        rintro i o s a t ⟨⟨data, asked, hst⟩, hu⟩ ha hs
        exact ⟨hst.step hs, hu.step hst ha hs⟩)
    exact hboth.2
  have hr : n.left.reader ≠ .idle := by
    intro hidle
    rcases hc.streams.finished hc.ended with hpc | ⟨hpc, -⟩
    · obtain ⟨k, hk⟩ := hu.refused hpc hidle
      have ha := hc.answers
      simp [hk] at ha
    · have hdone := (hu.drained (.inl hpc)).1
      simp [hidle] at hdone
  have hdata : data = source.drop n.right.resumeOffset := by
    rw [← hc.startOffset_eq hr]
    exact hu.data_eq hc.streams hc.ended hr
  obtain ⟨hw, rfl, rfl⟩ := hc.stores.event p d he
  obtain ⟨hfile, hhash⟩ := hc.stores.done hw hc.streamEnded
  subst hdata
  exact ⟨hfile, by rw [hhash], hc.phases, hw, hc.sameRequest⟩

/-- The receiver starts anew, or what it holds is a prefix of the source of a whole
number of blocks. -/
def ResumesCleanly (fs : Files) (outputDir : Text) (request : TransferRequest)
    (source : Bytes) : Prop :=
  request.forceRestart = false → ∀ existing,
    fs (outputPath outputDir request.fileName) = some existing →
      streamChunkSize ∣ existing.length ∧ existing <+: source

/-- **Delivery over QUIC.** In every run without faults and cancellation, a reported
file is the source with its digest exactly when the receiver resumes cleanly. -/
theorem complete_delivers_iff {source : Bytes}
    {n : Net (Sender.State C) (Receiver.State C) Item}
    (h : (transfer C request (Disk.ofFile source) outputDir).Reach undisturbed (opening C fs) n)
    {p : Path} {d : C.Digest} (he : n.right.event = some (.complete p d)) :
    (n.right.files p = some source ∧ d = C.blake3 source) ↔
      ResumesCleanly fs outputDir request source := by
  obtain ⟨hfile, hhash, hp, hw, hreq⟩ := data_eq_of_complete h he
  obtain ⟨hres, hpath, hoff⟩ := hp.chosen (.inr (by simp [hw]))
  rw [hreq] at hres hpath hoff
  cases hr : isResume fs outputDir request with
  | false =>
    have hzero : n.right.resumeOffset = 0 := by simp [hoff, resumeOffset, hr]
    have hbase : n.right.base fs = [] := by simp [Receiver.State.base, hres, hr]
    rw [hzero, hbase] at hfile hhash
    refine ⟨fun _ hforce existing hex => ?_, fun _ => ⟨by simpa using hfile, by simpa using hhash⟩⟩
    simp [isResume, hforce, Files.exists?, hex] at hr
  | true =>
    have hboth : request.forceRestart = false ∧
        (fs (outputPath outputDir request.fileName)).isSome := by
      simpa [isResume, Files.exists?] using hr
    obtain ⟨existing, hex⟩ := Option.isSome_iff_exists.mp hboth.2
    have hlen : n.right.resumeOffset = existing.length / streamChunkSize * streamChunkSize := by
      simp [hoff, resumeOffset, hr, Files.len, hex]
    have hbase : n.right.base fs = existing := by
      simp [Receiver.State.base, hres, hr, hpath, finalPath, hex]
    rw [hbase, hlen] at hfile hhash
    have hiff := @append_rounded_eq_iff existing source streamChunkSize
    constructor
    · rintro ⟨hs, -⟩ - existing' hex'
      rw [hex, Option.some.injEq] at hex'
      rw [← hex']
      exact hiff.mp (Option.some.inj (hfile.symm.trans hs))
    · intro hclean
      have hdel := hclean hboth.1 existing hex
      refine ⟨by rw [hfile, hiff.mpr hdel], ?_⟩
      rw [hhash, Nat.div_mul_cancel hdel.1, List.take_length]
      have hall := hiff.mpr hdel
      rw [Nat.div_mul_cancel hdel.1] at hall
      rw [hall]

/-- A new file of two bytes. -/
theorem complete_delivers_new :
    ∃ n : Net (Sender.State .plain) (Receiver.State .plain) Item,
      n.right.event = some (.complete samplePath [1, 2]) ∧
      ((n.right.files samplePath = some [1, 2] ∧ [1, 2] = Primitives.plain.blake3 [1, 2]) ↔
        ResumesCleanly noFiles ['/', 'd'] sampleRequest [1, 2]) := by
  obtain ⟨n, hn, he⟩ := Option.map_eq_some_iff.mp
    (show ((transfer .plain sampleRequest (Disk.ofFile [1, 2]) ['/', 'd']).runUnder undisturbed
      (opening .plain noFiles) (runWhole sampleRequest false [1, 2])).map (·.right.event) =
        some (some (.complete samplePath [1, 2])) from rfl)
  exact ⟨n, he, complete_delivers_iff (Machine.reach_of_runUnder _ hn) he⟩

/-- One byte of the source at the receiver is kept, and the whole source follows it. -/
theorem complete_corrupts_partial :
    ∃ n : Net (Sender.State .plain) (Receiver.State .plain) Item,
      (transfer .plain sampleRequest (Disk.ofFile [1, 2]) ['/', 'd']).Reach undisturbed
        (opening .plain partialFile) n ∧
      n.right.event = some (.complete samplePath [1, 2]) ∧
      n.right.files samplePath = some [1, 1, 2] := by
  obtain ⟨n, hn, he⟩ := Option.map_eq_some_iff.mp
    (show ((transfer .plain sampleRequest (Disk.ofFile [1, 2]) ['/', 'd']).runUnder undisturbed
      (opening .plain partialFile) (runWhole sampleRequest true [1, 2])).map
        (fun n => (n.right.event, n.right.files samplePath)) =
        some (some (.complete samplePath [1, 2]), some [1, 1, 2]) from rfl)
  exact ⟨n, Machine.reach_of_runUnder _ hn, congrArg Prod.fst he, congrArg Prod.snd he⟩

/-- The bytes that a reported transfer has had in all. -/
theorem total_of_complete {m : Nat} (hdisk : disk.EndsAt m)
    {n : Net (Sender.State C) (Receiver.State C) Item}
    (h : (transfer C request disk outputDir).Reach sound (opening C fs) n) {p : Path} {d : C.Digest}
    (he : n.right.event = some (.complete p d)) :
    n.right.request = request ∧
      n.right.resumeOffset + n.right.bytesReceived = max (resumeOffset fs outputDir request) m ∧
      n.left.startOffset + n.left.sent = max (resumeOffset fs outputDir request) m := by
  obtain ⟨iL, oL, data, hl, hc⟩ := completed_of_event (fun _ a => a.sound) (fun _ _ hok => hok) h he
  have hdrains : Sender.Drains m n.left := by
    have hboth := hl.invariant
      (I := fun i o s => (∃ data asked, Sender.Streams request disk data asked i o s) ∧
        Sender.Drains m s)
      ⟨⟨[], false, Sender.Streams.start _ _⟩, Sender.Drains.start m⟩ (by
        rintro i o s a t ⟨⟨data, asked, hst⟩, hd⟩ ha hs
        exact ⟨hst.step hs, hd.step hdisk hst ha hs⟩)
    exact hboth.2
  have hidle : n.left.reader ≠ .idle := by simp [(hdrains.drained (.inr hc.ended)).1]
  have hoff : n.right.resumeOffset = resumeOffset fs outputDir request := by
    have hwriter : n.right.writer = .done := (hc.stores.event p d he).1
    rw [(hc.phases.chosen (.inr (by simp [hwriter]))).2.2, hc.sameRequest]
  have hsent := hdrains.startOffset_add_sent hc.streams hc.ended
  rw [hc.startOffset_eq hidle, hoff] at hsent
  refine ⟨hc.sameRequest, ?_, ?_⟩
  · rw [hoff, hc.received]
    exact hsent
  · rw [hc.startOffset_eq hidle, hoff]
    exact hsent

/-- **No truncated success.** In every run in which the sender's reader does not fail and no early
return ends the stream, a reported transfer has the announced size exactly when the source has it
where it is read and the receiver does not keep more; and a sender that failed all the same had put
everything. -/
theorem complete_only_if_whole {m : Nat} (hdisk : disk.EndsAt m)
    {n : Net (Sender.State C) (Receiver.State C) Item}
    (h : (transfer C request disk outputDir).Reach sound (opening C fs) n) {p : Path} {d : C.Digest}
    (he : n.right.event = some (.complete p d)) :
    (n.right.resumeOffset + n.right.bytesReceived = n.right.request.fileSize ∧
      ∀ e, n.left.result = some (.error e) →
        n.left.startOffset + n.left.sent = request.fileSize) ↔
      max (resumeOffset fs outputDir request) m = request.fileSize := by
  obtain ⟨hrequest, htotal, hsent⟩ := total_of_complete hdisk h he
  rw [hrequest, htotal, hsent]
  exact ⟨fun hboth => hboth.1, fun hsize => ⟨hsize, fun _ _ => hsize⟩⟩

/-- A small file that is sent whole. -/
theorem complete_whole_file :
    ∃ n : Net (Sender.State .plain) (Receiver.State .plain) Item,
      n.right.event = some (.complete samplePath [1, 2]) ∧
      n.right.resumeOffset + n.right.bytesReceived = n.right.request.fileSize ∧
        ∀ e, n.left.result = some (.error e) →
          n.left.startOffset + n.left.sent = sampleRequest.fileSize := by
  obtain ⟨n, hn, he⟩ := Option.map_eq_some_iff.mp
    (show ((transfer .plain sampleRequest (Disk.ofFile [1, 2]) ['/', 'd']).runUnder sound
      (opening .plain noFiles) (runWhole sampleRequest false [1, 2])).map (·.right.event) =
        some (some (.complete samplePath [1, 2])) from rfl)
  exact ⟨n, he, (complete_only_if_whole (Disk.ofFile_endsAt [1, 2]) (Machine.reach_of_runUnder _ hn)
    he).mpr rfl⟩

/-- A source that has lost one of its two bytes since it was measured: both sides succeed, and the
receiver reports a file of one byte as complete. -/
theorem complete_truncated :
    ∃ n : Net (Sender.State .plain) (Receiver.State .plain) Item,
      (transfer .plain sampleRequest (Disk.ofFile [1]) ['/', 'd']).Reach (fun _ _ => True)
        (opening .plain noFiles) n ∧
      n.right.event = some (.complete samplePath [1]) ∧
      n.right.resumeOffset + n.right.bytesReceived = 1 ∧ n.right.request.fileSize = 2 := by
  obtain ⟨n, hn, he⟩ := Option.map_eq_some_iff.mp
    (show ((transfer .plain sampleRequest (Disk.ofFile [1]) ['/', 'd']).runUnder
      (fun _ _ => True) (opening .plain noFiles) (runWhole sampleRequest false [1])).map
        (fun n => (n.right.event, n.right.resumeOffset + n.right.bytesReceived,
          n.right.request.fileSize)) =
        some (some (.complete samplePath [1]), 1, 2) from rfl)
  simp only [Prod.mk.injEq] at he
  exact ⟨n, Machine.reach_of_runUnder _ hn, he⟩

end

end P2PTransfer.Alpn
