import P2PTransfer.Alpn.Transfer
import P2PTransfer.Lan.Transfer

/-!
# How much a peer can make a receiver store

The announced size of a file is shown to the user and decides about resuming, but
neither receiver counts against it. What bounds the file is what the peer has sent.

## Main definitions

- `Extends` — what a file holds of a transfer
- `Lan.payload`, `Alpn.payload` — the bytes of a file among the messages of a peer
-/

namespace P2PTransfer

open Transition

/-- The content is what was there before, or nothing, and at most `k` bytes after it. -/
def Extends (before : Option Bytes) (k : Nat) (content : Bytes) : Prop :=
  ∃ old new, content = old ++ new ∧ (old = [] ∨ old = before.getD []) ∧ new.length ≤ k

theorem Extends.refl (before : Option Bytes) (k : Nat) : Extends before k (before.getD []) :=
  ⟨before.getD [], [], by simp, .inr rfl, by simp⟩

theorem Extends.nil (before : Option Bytes) (k : Nat) : Extends before k [] :=
  ⟨[], [], rfl, .inl rfl, by simp⟩

theorem Extends.append {before : Option Bytes} {k j : Nat} {content more : Bytes}
    (h : Extends before k content) (hlen : k + more.length ≤ j) :
    Extends before j (content ++ more) := by
  obtain ⟨old, new, rfl, hold, hnew⟩ := h
  refine ⟨old, new ++ more, by simp, hold, ?_⟩
  rw [List.length_append]
  omega

theorem Extends.mono {before : Option Bytes} {k j : Nat} {content : Bytes}
    (h : Extends before k content) (hle : k ≤ j) : Extends before j content := by
  obtain ⟨old, new, hc, hold, hnew⟩ := h
  exact ⟨old, new, hc, hold, hnew.trans hle⟩

variable {C : Primitives}

namespace Lan

/-- The size of the plain data of a chunk. -/
def plainLength (data : Bytes) : Nat := data.length - tagLen

def payload (fs : List (Frame C)) : Nat :=
  (fs.map fun f => ((Receiver.chunkData f).map plainLength).getD 0).sum

theorem payload_append (fs gs : List (Frame C)) : payload (fs ++ gs) = payload fs + payload gs := by
  simp [payload]

namespace Receiver

/-- What is on its way to the file. -/
def State.load (s : State C) : Nat :=
  s.buffer.length + (s.channel.map fun b => plainLength b.2).sum +
    (s.held.toList.map plainLength).sum

/-- The file and what is on its way to it come from the peer. -/
def Sized (before : Option Bytes) (k : Nat) (s : State C) : Prop :=
  ∃ j, j + s.load ≤ k ∧ Extends before j s.content

theorem Sized.keep {before : Option Bytes} {k k' : Nat} {s t : State C} (h : Sized before k s)
    (hc : t.content = s.content) (hl : t.load + k ≤ s.load + k') : Sized before k' t := by
  obtain ⟨j, hj, hx⟩ := h
  exact ⟨j, by omega, hc ▸ hx⟩

/-- A step that removes or empties the file. -/
theorem Sized.drop {before : Option Bytes} {k k' : Nat} {s t : State C} (h : Sized before k s)
    (hc : t.content = []) (hl : t.load + k ≤ s.load + k') : Sized before k' t := by
  obtain ⟨j, hj, -⟩ := h
  exact ⟨j, by omega, hc ▸ .nil before j⟩

variable {before : Option Bytes} {k : Nat} {s t : State C} {a : Act C}
  (hdec : ∀ key n c p, C.decrypt key n c = some p → p.length ≤ plainLength c)

include hdec in
theorem Sized.step (h : Sized before k s) (hs : Receiver.step s a = some t) :
    Sized before (k + payload ((receiver C).recvs a)) t := by
  cases a with
  | cancel =>
    obtain rfl := Option.some.inj hs
    exact h.keep rfl (by simp only [State.load]; omega)
  | chunk f data =>
    simp only [Receiver.step, guarded_eq_some] at hs
    obtain ⟨⟨-, hdata⟩, rfl⟩ := hs
    refine h.keep rfl ?_
    simp only [State.load, receiver, payload, hdata, Option.toList_some, List.map_cons,
      List.map_nil, Option.map_some, Option.getD_some, List.sum_cons, List.sum_nil]
    omega
  | forward data =>
    simp only [Receiver.step, guarded_eq_some] at hs
    obtain ⟨⟨-, hheld, -⟩, rfl⟩ := hs
    refine h.keep rfl ?_
    simp only [State.load, hheld, Option.toList_some, Option.toList_none, List.map_append,
      List.sum_append, List.map_cons, List.map_nil, List.sum_cons, List.sum_nil]
    omega
  | writeBlock index data plain =>
    simp only [Receiver.step, guarded_eq_some] at hs
    obtain ⟨⟨-, hhead, hd⟩, rfl⟩ := hs
    obtain ⟨rest, hrest⟩ := List.head?_eq_some_iff.mp hhead
    obtain ⟨j, hj, hx⟩ := h
    obtain ⟨new, hnew, hlen⟩ := BufWriter.writeAll_extends lanBlockSize s.content s.buffer plain
    have hplain := hdec _ _ _ _ hd
    simp only [State.load, hrest, List.map_cons, List.sum_cons] at hj
    refine ⟨j + new.length, ?_, ?_⟩
    · simp only [State.load, hrest, List.tail_cons]
      omega
    · show Extends before _ (((s.files.set s.path (some _)) s.path).getD [])
      rw [Files.set_self, Option.getD_some, hnew]
      exact hx.append le_rfl
  | flush =>
    simp only [Receiver.step, guarded_eq_some] at hs
    obtain ⟨-, rfl⟩ := hs
    obtain ⟨j, hj, hx⟩ := h
    simp only [State.load] at hj
    refine ⟨j + s.buffer.length, ?_, ?_⟩
    · simp only [State.load, List.length_nil]
      omega
    · show Extends before _ (((s.files.set s.path (some _)) s.path).getD [])
      rw [Files.set_self, Option.getD_some]
      exact hx.append le_rfl
  | openFile =>
    simp only [Receiver.step, guarded_eq_some] at hs
    obtain ⟨-, rfl⟩ := hs
    cases hr : s.resuming with
    | true => exact h.keep rfl (by simp only [State.load]; omega)
    | false => exact h.drop (by simp [State.content]) (by simp only [State.load]; omega)
  | drained e =>
    simp only [Receiver.step, guarded_eq_some] at hs
    obtain ⟨-, rfl⟩ := hs
    exact h.drop (by simp [State.content]) (by simp only [State.load]; omega)
  | joinError =>
    simp only [Receiver.step, guarded_eq_some] at hs
    obtain ⟨-, rfl⟩ := hs
    exact h.drop (by simp [State.content]) (by simp only [State.load]; omega)
  | verifyError detail =>
    simp only [Receiver.step, guarded_eq_some] at hs
    obtain ⟨-, rfl⟩ := hs
    exact h.drop (by simp [State.content]) (by simp only [State.load]; omega)
  | sendMismatch =>
    simp only [Receiver.step, guarded_eq_some] at hs
    obtain ⟨-, rfl⟩ := hs
    exact h.drop (by simp [State.content]) (by simp only [State.load]; omega)
  | _ =>
    simp only [Receiver.step, guarded_eq_some] at hs
    obtain ⟨-, rfl⟩ := hs
    exact h.keep rfl (by simp only [State.load]; omega)

end Receiver

end Lan

namespace Alpn

def Item.isByte : Item → Bool
  | .byte _ => true
  | _ => false

def payload (is : List Item) : Nat := is.countP Item.isByte

theorem payload_append (is js : List Item) : payload (is ++ js) = payload is + payload js :=
  List.countP_append

theorem payload_bytes (data : Bytes) : payload (data.map Item.byte) = data.length := by
  rw [payload, List.countP_eq_length.mpr, List.length_map]
  intro i hi
  obtain ⟨b, -, rfl⟩ := List.mem_map.mp hi
  rfl

namespace Receiver

def State.load (s : State C) : Nat := s.buffer.length + s.channel.flatten.length + s.held.length

/-- The file and what is on its way to it come from the peer. -/
def Sized (fs : Files) (k : Nat) (s : State C) : Prop :=
  ∃ j, j + s.load ≤ k ∧ Extends (fs s.path) j s.content

theorem Sized.keep {fs : Files} {k k' : Nat} {s t : State C} (h : Sized fs k s)
    (hp : t.path = s.path) (hc : t.files = s.files) (hl : t.load + k ≤ s.load + k') :
    Sized fs k' t := by
  obtain ⟨j, hj, hx⟩ := h
  refine ⟨j, by omega, ?_⟩
  rw [State.content, hp, hc]
  exact hx

/-- A step that removes or empties the file. -/
theorem Sized.drop {fs : Files} {k k' : Nat} {s t : State C} (h : Sized fs k s)
    (hc : t.content = []) (hl : t.load + k ≤ s.load + k') : Sized fs k' t := by
  obtain ⟨j, hj, -⟩ := h
  exact ⟨j, by omega, hc ▸ .nil _ j⟩

theorem Sized.step {outputDir : Text} {fs : Files} {k : Nat} {s t : State C} {a : Act}
    (h : Sized fs k s) (hp : Phases outputDir fs s) (hs : Receiver.step outputDir s a = some t) :
    Sized fs (k + payload (recvs a)) t := by
  cases a with
  | command c =>
    obtain ⟨control, -, rfl⟩ := Option.map_eq_some_iff.mp hs
    exact h.keep rfl rfl (by simp only [State.load]; omega)
  | prepare =>
    -- the path is chosen, and no file has been touched before
    simp only [Receiver.step, guarded_eq_some] at hs
    obtain ⟨g, rfl⟩ := hs
    have hfiles := (hp.deciding (by simp [g, Pc.deciding])).2.2
    obtain ⟨j, hj, -⟩ := h
    refine ⟨0, by simp only [State.load] at hj ⊢; omega, ?_⟩
    simp only [State.content, hfiles]
    exact .refl _ 0
  | read data =>
    simp only [Receiver.step, guarded_eq_some] at hs
    obtain ⟨-, rfl⟩ := hs
    refine h.keep rfl rfl ?_
    simp only [State.load, recvs, payload_bytes]
    omega
  | forward =>
    simp only [Receiver.step, guarded_eq_some] at hs
    obtain ⟨-, rfl⟩ := hs
    refine h.keep rfl rfl ?_
    simp only [State.load, List.flatten_append, List.flatten_singleton, List.length_append,
      List.length_nil]
    omega
  | writeChunk chunk =>
    simp only [Receiver.step, guarded_eq_some] at hs
    obtain ⟨⟨-, hhead⟩, rfl⟩ := hs
    obtain ⟨rest, hrest⟩ := List.head?_eq_some_iff.mp hhead
    obtain ⟨j, hj, hx⟩ := h
    obtain ⟨new, hnew, hlen⟩ := BufWriter.writeAll_extends streamChunkSize s.content s.buffer chunk
    simp only [State.load, hrest, List.flatten_cons, List.length_append] at hj
    refine ⟨j + new.length, ?_, ?_⟩
    · simp only [State.load, hrest, List.tail_cons]
      omega
    · show Extends (fs s.path) _ (((s.files.set s.path (some _)) s.path).getD [])
      rw [Files.set_self, Option.getD_some, hnew]
      exact hx.append le_rfl
  | flush =>
    simp only [Receiver.step, guarded_eq_some] at hs
    obtain ⟨-, rfl⟩ := hs
    obtain ⟨j, hj, hx⟩ := h
    simp only [State.load] at hj
    refine ⟨j + s.buffer.length, ?_, ?_⟩
    · simp only [State.load, List.length_nil]
      omega
    · show Extends (fs s.path) _ (((s.files.set s.path (some _)) s.path).getD [])
      rw [Files.set_self, Option.getD_some]
      exact hx.append le_rfl
  | createFile =>
    simp only [Receiver.step, guarded_eq_some] at hs
    obtain ⟨-, rfl⟩ := hs
    exact h.drop (by simp [State.content]) (by simp only [State.load]; omega)
  | settle e =>
    simp only [Receiver.step, guarded_eq_some] at hs
    obtain ⟨-, rfl⟩ := hs
    exact h.drop (by simp [State.content]) (by simp only [State.load]; omega)
  | _ =>
    simp only [Receiver.step, guarded_eq_some] at hs
    obtain ⟨-, rfl⟩ := hs
    exact h.keep rfl rfl (by simp only [State.load]; omega)

end Receiver

end Alpn

/-- **What a peer can make a receiver store.** Whatever a peer sends after its offer was
accepted, the output file never holds more of it than the peer has sent. -/
theorem stored_le_received
    (hdec : ∀ key n c p, C.decrypt key n c = some p → p.length ≤ Lan.plainLength c)
    (fs : Files) (outputDir : Text) :
    (∀ pauses key metadata i o (s : Lan.Receiver.State C),
      (Lan.receiver C).Trace (fun _ _ => True)
          (Lan.Receiver.State.start pauses fs outputDir key metadata) i o s →
        Extends (fs s.path) (Lan.payload i) s.content) ∧
    ∀ i o (s : Alpn.Receiver.State C),
      (Alpn.receiver C outputDir).Trace (fun _ _ => True) { files := fs } i o s →
        Extends (fs s.path) (Alpn.payload i) s.content := by
  constructor
  · intro pauses key metadata i o s h
    have hboth := h.invariant
      (I := fun i _ s => Lan.Receiver.Sized (fs s.path) (Lan.payload i) s)
      ⟨0, le_rfl, .refl _ 0⟩ fun i o s a t hI _ hs => by
        rw [Lan.payload_append, (Lan.Receiver.step_const hs).2.2.1]
        exact hI.step hdec hs
    obtain ⟨j, hj, hx⟩ := hboth
    exact hx.mono (by omega)
  · intro i o s h
    have hboth := h.invariant
      (I := fun i _ s => Alpn.Receiver.Sized fs (Alpn.payload i) s ∧
        Alpn.Receiver.Phases outputDir fs s)
      ⟨⟨0, le_rfl, .refl _ 0⟩, Alpn.Receiver.Phases.start outputDir fs⟩
      fun i o s a t hI _ hs => by
        rw [Alpn.payload_append]
        exact ⟨hI.1.step hI.2 hs, hI.2.step hs⟩
    obtain ⟨j, hj, hx⟩ := hboth.1
    exact hx.mono (by omega)

/-- An offer of one byte. -/
def oneByte : TransferMetadata .plain :=
  Lan.directMetadata .plain [] Lan.sampleName [1] [0, 0, 0, 0] false

/-- Two bytes in one chunk. -/
def lanTwoBytes : List (Lan.Receiver.Act .plain) :=
  let data : Bytes := [1, 2] ++ List.replicate tagLen 0
  [.openFile, .proceed, .chunk (Frame.ofChunk 0 false data) data, .forward data,
    .writeBlock 0 data [1, 2], .proceed, .complete ⟨tagComplete, .text []⟩, .close, .flush]

theorem stored_le_received_two : ∃ i : List (Frame .plain), Lan.payload i = 2 ∧
    ∃ s : Lan.Receiver.State .plain, s.content = [1, 2] ∧
      Extends (noFiles s.path) (Lan.payload i) s.content := by
  obtain ⟨s, hs, hc⟩ := Option.map_eq_some_iff.mp
    (show ((Lan.receiver .plain).run (Lan.Receiver.State.start 0 noFiles Lan.sampleDir ()
      oneByte) lanTwoBytes).map (·.content) = some [1, 2] from rfl)
  obtain ⟨o, ho⟩ := Party.trace_of_run (fun _ _ _ => trivial) hs
  exact ⟨lanTwoBytes.flatMap (Lan.receiver .plain).recvs, by decide, s, hc,
    (stored_le_received (C := .plain) (fun key n c p hp => by
      obtain rfl := Option.some.inj hp
      simp [Lan.plainLength]) noFiles Lan.sampleDir).1 _ _ _ _ _ _ ho⟩

/-- The same two bytes over QUIC. -/
def alpnTwoBytes (request : Alpn.TransferRequest) : List Alpn.Receiver.Act :=
  [.readRequest request, .activate, .register, .answer true, .prepare, .respond, .createFile,
    .getFlag, .proceed, .read [1, 2], .forward, .writeChunk [1, 2], .getFlag, .proceed,
    .endOfStream, .close, .flush]

/-- Both receivers store two bytes of an offer of one. -/
theorem stored_exceeds_announced :
    (∃ s : Lan.Receiver.State .plain, s.metadata.fileSize = 1 ∧
      (Lan.receiver .plain).Reach (fun _ _ => True)
        (Lan.Receiver.State.start 0 noFiles Lan.sampleDir () oneByte) s ∧
      ¬ Extends (noFiles s.path) s.metadata.fileSize s.content) ∧
    ∃ s : Alpn.Receiver.State .plain, s.request.fileSize = 1 ∧
      (Alpn.receiver .plain Lan.sampleDir).Reach (fun _ _ => True) { files := noFiles } s ∧
      ¬ Extends (noFiles s.path) s.request.fileSize s.content := by
  have hlong : ∀ p : Path, ¬ Extends (noFiles p) 1 [1, 2] := by
    rintro p ⟨old, new, hc, hold, hnew⟩
    have hnil : old = [] := by rcases hold with rfl | rfl <;> rfl
    rw [hnil, List.nil_append] at hc
    rw [← hc] at hnew
    exact absurd hnew (by decide)
  constructor
  · obtain ⟨s, hs, hc⟩ := Option.map_eq_some_iff.mp
      (show ((Lan.receiver .plain).run (Lan.Receiver.State.start 0 noFiles Lan.sampleDir ()
        oneByte) lanTwoBytes).map (fun s => (s.metadata.fileSize, s.content)) =
          some (1, [1, 2]) from rfl)
    obtain ⟨hsize, hcontent⟩ := Prod.mk.inj hc
    exact ⟨s, hsize, Machine.reach_of_run (fun _ _ _ => trivial) hs,
      by rw [hsize, hcontent]; exact hlong _⟩
  · obtain ⟨s, hs, hc⟩ := Option.map_eq_some_iff.mp
      (show ((Alpn.receiver .plain Lan.sampleDir).run { files := noFiles }
        (alpnTwoBytes ⟨['r'], ['f'], 1, false⟩)).map
          (fun s => (s.request.fileSize, s.content)) = some (1, [1, 2]) from rfl)
    obtain ⟨hsize, hcontent⟩ := Prod.mk.inj hc
    exact ⟨s, hsize, Machine.reach_of_run (fun _ _ _ => trivial) hs,
      by rw [hsize, hcontent]; exact hlong _⟩

end P2PTransfer
