import P2PTransfer.Lib.Shared
import P2PTransfer.Lan.Soundness

/-!
# Incoming LAN transfers side by side

Any number of accepted runs of `tcp_compat::handle_incoming` over one file system. Each
of them computes its path from the name that its peer announced, opens, writes and
removes the file there, and knows nothing of the others.

## Main definitions

- `Incoming` — a run before and after its resume decision
- `incoming` — the runs over the files they share
- `Delivers` — a reported file is there and stays there
-/

namespace P2PTransfer.Lan

open Transition

variable {C : Primitives} {ι : Type*}

/-- The files by the place that a path leads to. -/
abbrev Tree := Location → Option Bytes

def Tree.files (tree : Tree) : Files := fun p => tree p.normalize

inductive Incoming (C : Primitives) where
  | accepted
  | running (s : Receiver.State C)

inductive IncomingAct (C : Primitives) where
  | start (key : C.Key) (pauses : Nat)
  | body (a : Receiver.Act C)

/-- One run: it looks at its output path, and then goes on as the receiver. -/
def Incoming.step (outputDir : Text) (m : TransferMetadata C) (tree : Tree) :
    Incoming C → IncomingAct C → Option (Tree × Incoming C)
  | .accepted, .start key pauses =>
    some (tree, .running (Receiver.State.start pauses tree.files outputDir key m))
  | .running s, .body a => (Receiver.step { s with files := tree.files } a).map fun t =>
      (Function.update tree t.path.normalize (t.files t.path), .running t)
  | _, _ => none

/-- The runs with the offers that their users accepted. -/
def incoming (C : Primitives) (outputDir : Text) (offer : ι → TransferMetadata C) :
    Components ι Tree (Incoming C) (IncomingAct C) where
  step i tree := Incoming.step outputDir (offer i) tree

/-- The place that a run writes to. -/
def place (outputDir : Text) (m : TransferMetadata C) : Location :=
  (outputPath outputDir m.fileName).normalize

/-- What a run has reported as complete is what its peer announced. -/
def Delivers (path : Path) (source : Bytes) (tree : Tree) : Incoming C → Prop
  | .running s => ∀ p d, s.event = some (.complete p d) → p = path ∧
      tree path.normalize = some source
  | .accepted => True

namespace Receiver

/-- A completion is reported by a receiver that has sent the COMPLETE frame. -/
def Reports (o : List (Frame C)) (s : State C) : Prop :=
  ∀ p d, s.event = some (.complete p d) → p = s.path ∧ ∃ f ∈ o, f.tag = tagComplete

theorem Reports.step {o : List (Frame C)} {s t : State C} {a : Act C} (h : Reports o s)
    (hs : step s a = some t) : Reports (o ++ (receiver C).sends s a) t := by
  cases a with
  | cancel =>
    obtain rfl := Option.some.inj hs
    simp only [receiver, List.append_nil]
    exact h
  | sendComplete =>
    simp only [Receiver.step, guarded_eq_some] at hs
    obtain ⟨g, rfl⟩ := hs
    intro p d he
    simp only [Option.some.injEq, Alpn.TransferEvent.complete.injEq] at he
    exact ⟨he.1.symm, _, List.mem_append_right _ (List.mem_singleton_self _), rfl⟩
  | sendCancel =>
    simp only [Receiver.step, guarded_eq_some] at hs
    obtain ⟨g, rfl⟩ := hs
    intro p d he
    cases he
  | sendMismatch =>
    simp only [Receiver.step, guarded_eq_some] at hs
    obtain ⟨g, rfl⟩ := hs
    intro p d he
    obtain ⟨hp, f, hf, ht⟩ := h p d he
    exact ⟨hp, f, by simp [hf], ht⟩
  | _ =>
    simp only [Receiver.step, receiver, List.append_nil, guarded_eq_some] at hs ⊢
    obtain ⟨g, rfl⟩ := hs
    exact h

/-- Only what is at its own path matters to the receiver. -/
theorem Verifies.withFiles {o : List (Frame C)} {s : State C} (h : Verifies o s) (fs : Files)
    (hfs : fs s.path = s.files s.path) : Verifies o { s with files := fs } := by
  obtain ⟨h1, h2, h3, h4⟩ := h
  refine ⟨h1, ?_, ?_, ?_⟩
  · simpa [hfs] using h2
  · simpa [State.content, hfs] using h3
  · simpa [hfs] using h4

end Receiver

/-- A run that has started, and its file. -/
def Owns (outputDir : Text) (m : TransferMetadata C) (tree : Tree) : Incoming C → Prop
  | .running s => s.path = outputPath outputDir m.fileName ∧ s.metadata = m ∧
      s.files s.path = tree s.path.normalize ∧
      ∃ o, Receiver.Verifies o s ∧ Receiver.Reports o s
  | .accepted => True

theorem Owns.step {outputDir : Text} {m : TransferMetadata C} {tree tree' : Tree}
    {r r' : Incoming C} {a : IncomingAct C} (h : Owns outputDir m tree r)
    (hs : Incoming.step outputDir m tree r a = some (tree', r')) : Owns outputDir m tree' r' := by
  cases r with
  | accepted =>
    cases a <;> cases hs
    exact ⟨rfl, rfl, rfl, [], Receiver.Verifies.start _ _ _ _ _, by simp [Receiver.Reports,
      Receiver.State.start]⟩
  | running s =>
    cases a with
    | start key pauses => cases hs
    | body a =>
      obtain ⟨t, ht, hr⟩ := Option.map_eq_some_iff.mp hs
      obtain ⟨rfl, rfl⟩ := Prod.mk.inj hr
      obtain ⟨hpath, hm, hfile, o, hv, hrep⟩ := h
      obtain ⟨-, hm', hpath', -⟩ := Receiver.step_const ht
      have hv' := hv.withFiles tree.files hfile.symm
      exact ⟨hpath'.trans hpath, hm'.trans hm, by simp, _, hv'.step ht,
        Receiver.Reports.step (s := { s with files := tree.files }) hrep ht⟩

/-- A run leaves every other place as it is. -/
theorem Owns.frame {outputDir : Text} {m : TransferMetadata C} {tree tree' : Tree}
    {r r' : Incoming C} {a : IncomingAct C} (h : Owns outputDir m tree r)
    (hs : Incoming.step outputDir m tree r a = some (tree', r')) {l : Location}
    (hl : l ≠ place outputDir m) : tree' l = tree l := by
  cases r with
  | accepted =>
    cases a <;> cases hs
    rfl
  | running s =>
    cases a with
    | start key pauses => cases hs
    | body a =>
      obtain ⟨t, ht, hr⟩ := Option.map_eq_some_iff.mp hs
      obtain ⟨rfl, rfl⟩ := Prod.mk.inj hr
      have hpath : t.path = outputPath outputDir m.fileName :=
        (Receiver.step_const ht).2.2.1.trans h.1
      exact Function.update_of_ne (by rw [hpath]; exact hl) ..

variable [DecidableEq ι]

/-- **Isolation.** Where the accepted offers lead to different places, every file that is
reported as complete is the announced one, and stays so whatever the other runs do. -/
theorem delivers_of_places_ne (hinj : Function.Injective C.blake3) {outputDir : Text}
    {offer : ι → TransferMetadata C} {source : ι → Bytes}
    (hsum : ∀ i, (offer i).checksum = C.blake3 (source i))
    (hne : ∀ i j, i ≠ j → place outputDir (offer i) ≠ place outputDir (offer j))
    {tree : Tree} {n : System ι Tree (Incoming C)}
    (h : (incoming C outputDir offer).machine.Reach (fun _ _ => True)
      ⟨tree, fun _ => .accepted⟩ n) (i : ι) :
    Delivers (outputPath outputDir (offer i).fileName) (source i) n.store (n.parts i) := by
  have hown := h.invariant
    (I := fun n : System ι Tree (Incoming C) => ∀ i, Owns outputDir (offer i) n.store (n.parts i))
    (fun _ => trivial)
    fun n a n' hI _ hs => Components.step_each (fun i => Owns outputDir (offer i)) hs
      (fun s x hstep => (hI a.1).step hstep) fun s x j hj hstep => by
        have hsame := (hI a.1).frame hstep (hne j a.1 hj)
        have hj' := hI j
        cases hp : n.parts j with
        | accepted => trivial
        | running r =>
          rw [hp] at hj'
          obtain ⟨hpath, hm, hfile, hrest⟩ := hj'
          refine ⟨hpath, hm, hfile.trans ?_, hrest⟩
          rw [hpath]
          exact hsame.symm
  have hi := hown i
  cases hp : n.parts i with
  | accepted => trivial
  | running s =>
    rw [hp] at hi
    obtain ⟨hpath, hm, hfile, o, hv, hrep⟩ := hi
    intro p d he
    obtain ⟨rfl, hcomplete⟩ := hrep p d he
    obtain ⟨-, -, content, hc, hd⟩ := hv.replied hcomplete
    refine ⟨hpath, ?_⟩
    rw [hm, hsum i] at hd
    rw [← hpath, ← hfile, hc, hinj hd]

/-- Two bytes that are received whole. -/
def receiveTwo : List (IncomingAct .plain) :=
  let data : Bytes := [1, 2] ++ List.replicate tagLen 0
  .start () 0 :: [.openFile, .proceed, .chunk (Frame.ofChunk 0 false data) data, .forward data,
    .writeBlock 0 data [1, 2], .proceed, .complete ⟨tagComplete, .text []⟩, .close, .flush, .join,
    .verify, .sendComplete].map .body

/-- Two offers of the same two bytes, under these names. -/
def twoOffers (name name' : Text) (second : Bool) : TransferMetadata .plain :=
  directMetadata .plain [] (if second then name' else name) [1, 2] [0, 0, 0, 0] false

/-- The first run is complete, and the second one has opened its file. -/
def overlap : List (Bool × IncomingAct .plain) :=
  receiveTwo.map (Prod.mk false) ++ [(true, .start () 0), (true, .body .openFile)]

theorem delivers_beside_other : ∃ n : System Bool Tree (Incoming .plain),
    (∃ s, n.parts false = .running s ∧ s.event.isSome) ∧
    Delivers (outputPath sampleDir ['f']) [1, 2] n.store (n.parts false) := by
  obtain ⟨n, hn, he⟩ := Option.map_eq_some_iff.mp
    (show ((incoming .plain sampleDir (twoOffers ['f'] ['g'])).machine.run
        ⟨fun _ => none, fun _ => .accepted⟩ overlap).map
      (fun n => match n.parts false with | .running s => s.event.isSome | _ => false) =
        some true from rfl)
  have hreach := Machine.reach_of_run (fun _ _ _ => trivial) hn
  refine ⟨n, ?_, @delivers_of_places_ne _ _ _ (fun _ _ h => h) sampleDir (twoOffers ['f'] ['g'])
    (fun _ => [1, 2]) (fun _ => rfl) (by decide) _ _ hreach false⟩
  cases hp : n.parts false with
  | running s => exact ⟨s, rfl, by simpa [hp] using he⟩
  | accepted => simp [hp] at he

/-- With one name for both, the second run empties the file of the first. -/
theorem overlap_empties : ∃ n : System Bool Tree (Incoming .plain),
    (incoming .plain sampleDir (twoOffers ['f'] ['f'])).machine.Reach (fun _ _ => True)
      ⟨fun _ => none, fun _ => .accepted⟩ n ∧
    ¬ Delivers (outputPath sampleDir ['f']) [1, 2] n.store (n.parts false) := by
  obtain ⟨n, hn, he⟩ := Option.map_eq_some_iff.mp
    (show ((incoming .plain sampleDir (twoOffers ['f'] ['f'])).machine.run
        ⟨fun _ => none, fun _ => .accepted⟩ overlap).map
      (fun n => (match n.parts false with | .running s => s.event | _ => none,
        n.store (outputPath sampleDir ['f']).normalize)) =
        some (some (.complete (outputPath sampleDir ['f']) [1, 2]), some []) from rfl)
  simp only [Prod.mk.injEq] at he
  refine ⟨n, Machine.reach_of_run (fun _ _ _ => trivial) hn, fun hd => ?_⟩
  cases hp : n.parts false with
  | accepted => simp [hp] at he
  | running s =>
    rw [hp] at he hd
    have hfile := (hd _ _ he.1).2
    simp [he.2] at hfile

end P2PTransfer.Lan
