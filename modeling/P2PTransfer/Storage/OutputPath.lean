import P2PTransfer.Storage.Path
import P2PTransfer.Storage.Bytes
import P2PTransfer.Transfer.Metadata

/-!
# Where a receiver writes

The four receivers choose the path of an incoming file from the configured
output directory and the file name the peer announces. None of them looks at the
components of that name.

## Main definitions

- `Files` — what the paths name: path to content
- `FileOp` — an operation of a receiver on its output file
- `Alpn.finalPath`, `Alpn.uniquePath` — the choice of the QUIC receiver
- `StaysInside` — when a file name leads below the output directory
-/

namespace P2PTransfer

/-- What a path names; `exists()` is also true of a directory. The paths are those of Unix, and
`create_dir_all` of the parent, which adds directories only, is left out. -/
abbrev Files := Path → Option Bytes

def noFiles : Files := fun _ => none

namespace Files

def exists? (fs : Files) (p : Path) : Bool := (fs p).isSome

/-- `std::fs::metadata(..).len()`. -/
def len (fs : Files) (p : Path) : Nat := ((fs p).getD []).length

def set (fs : Files) (p : Path) (content : Option Bytes) : Files := Function.update fs p content

@[simp] theorem set_self (fs : Files) (p : Path) (content : Option Bytes) :
    fs.set p content p = content := by simp [set]

@[simp] theorem set_set (fs : Files) (p : Path) (c d : Option Bytes) :
    (fs.set p c).set p d = fs.set p d := by simp [set]

end Files

/-- What the receivers do to the file they write. -/
inductive FileOp where
  | create (path : Path)
  | append (path : Path)
  | openWrite (path : Path)
  | setLen (path : Path) (len : Nat)
  | remove (path : Path)
deriving DecidableEq

def FileOp.path : FileOp → Path
  | .create p => p
  | .append p => p
  | .openWrite p => p
  | .setLen p _ => p
  | .remove p => p

/-- The file is opened for appending or created, and a failed transfer removes it. -/
def outputOps (path : Path) (append failed : Bool) : List FileOp :=
  (if append then .append path else .create path) :: if failed then [.remove path] else []

/-- `output_dir.join(file_name)`. -/
def outputPath (outputDir fileName : Text) : Path :=
  (Path.ofString outputDir).join (Path.ofString fileName)

namespace Alpn

structure TransferRequest where
  requestId : Text
  fileName : Text
  fileSize : Nat
  forceRestart : Bool := false
deriving DecidableEq

/-- A path beside `path` with a text put between its stem and its extension. -/
def candidate (path : Path) (suffix : Text) : Path :=
  let stem := path.fileStem.getD []
  let ext := (path.extension.map ('.' :: ·)).getD []
  let parent := path.parent.getD (Path.ofString ['.'])
  parent.join (Path.ofString (stem ++ suffix ++ ext))

/-- The text `" (i)"`. -/
def numbered (i : Nat) : Text := [' ', '('] ++ Nat.toDigits 10 i ++ [')']

def copySuffix : Text := [' ', '(', 'c', 'o', 'p', 'y', ')']

def uniquePath (fs : Files) (path : Path) : Path :=
  if fs.exists? path then
    let candidates := (List.range' 1 999).map fun i => candidate path (numbered i)
    (candidates.find? fun p => !fs.exists? p).getD (candidate path copySuffix)
  else path

def isResume (fs : Files) (outputDir : Text) (request : TransferRequest) : Bool :=
  !request.forceRestart && fs.exists? (outputPath outputDir request.fileName)

def finalPath (fs : Files) (outputDir : Text) (request : TransferRequest) : Path :=
  let outPath := outputPath outputDir request.fileName
  if isResume fs outputDir request then outPath else uniquePath fs outPath

/-- The operations of `handle_incoming_connection` after an accepted request. -/
def fileOps (fs : Files) (outputDir : Text) (request : TransferRequest) (failed : Bool) :
    List FileOp :=
  outputOps (finalPath fs outputDir request) (isResume fs outputDir request) failed

end Alpn

def lanBlockSize : Nat := 4 * 1024 * 1024

/-- The resume decision of the two LAN receivers: the announced offset and whether
the file is opened for appending. Only one of them heeds `force_restart`. -/
def lanResume (heedsRestart : Bool) {C : Primitives} (fs : Files) (path : Path)
    (metadata : TransferMetadata C) : Nat × Bool :=
  let existingLen := fs.len path
  if !(heedsRestart && metadata.forceRestart) && 0 < existingLen &&
      existingLen < metadata.fileSize then
    (existingLen / lanBlockSize * lanBlockSize, true)
  else (0, false)

/-- The operations of a LAN receiver after an accepted offer. -/
def lanFileOps (heedsRestart : Bool) {C : Primitives} (fs : Files) (outputDir : Text)
    (metadata : TransferMetadata C) (failed : Bool) : List FileOp :=
  let path := outputPath outputDir metadata.fileName
  outputOps path (lanResume heedsRestart fs path metadata).2 failed

namespace TcpCompat

def resume {C : Primitives} (fs : Files) (path : Path) (metadata : TransferMetadata C) :
    Nat × Bool := lanResume true fs path metadata

/-- `tcp_compat::handle_incoming`. -/
def fileOps {C : Primitives} (fs : Files) (outputDir : Text) (metadata : TransferMetadata C)
    (failed : Bool) : List FileOp := lanFileOps true fs outputDir metadata failed

end TcpCompat

namespace Gui

/-- The desktop `handle_incoming` resumes whatever the sender asks for. -/
def resume {C : Primitives} (fs : Files) (path : Path) (metadata : TransferMetadata C) :
    Nat × Bool := lanResume false fs path metadata

def fileOps {C : Primitives} (fs : Files) (outputDir : Text) (metadata : TransferMetadata C)
    (failed : Bool) : List FileOp := lanFileOps false fs outputDir metadata failed

end Gui

namespace Cli

/-- `ReceiverHandler::run` opens the file without truncation and sets its length. -/
def fileOps {C : Primitives} (outputDir : Text) (metadata : TransferMetadata C) : List FileOp :=
  let path := outputPath outputDir metadata.fileName
  [.openWrite path, .setLen path metadata.fileSize]

end Cli

/-- Every operation is on a strict descendant of the output directory. -/
def Inside (outputDir : Text) (ops : List FileOp) : Prop :=
  ∀ op ∈ ops, op.path.normalize.StrictlyBelow (Path.ofString outputDir).normalize

instance (outputDir : Text) (ops : List FileOp) : Decidable (Inside outputDir ops) :=
  inferInstanceAs (Decidable (∀ op ∈ ops, _))

/-- The components of the file name lead from the output directory to a place
below it. -/
def StaysInside (outputDir fileName : Text) : Prop :=
  (Path.ofString outputDir).normalize.ReturnsBelow (Path.ofString fileName).normalize

/-- The components of the file name without the last lead back into the output
directory. A name without components stands for the base itself, and then the
parent of the base has to be in the output directory. -/
def ParentStaysInside (outputDir fileName : Text) : Prop :=
  let dir := Path.ofString outputDir
  let name := Path.ofString fileName
  if Path.moves name.parts = [] then
    let base := if name.root ∨ dir = ⟨false, []⟩ then name else dir
    (base.parent.getD (Path.ofString ['.'])).normalize.Within dir.normalize
  else dir.normalize.Returns (Path.normalize ⟨name.root, (Path.moves name.parts).dropLast⟩)

theorem inside_outputOps (outputDir : Text) (path : Path) (append failed : Bool) :
    Inside outputDir (outputOps path append failed) ↔
      path.normalize.StrictlyBelow (Path.ofString outputDir).normalize := by
  unfold Inside outputOps
  cases append <;> cases failed <;> simp [FileOp.path]

theorem normalize_outputPath (outputDir fileName : Text) :
    (outputPath outputDir fileName).normalize =
      (Path.ofString outputDir).normalize.graft (Path.ofString fileName).normalize :=
  Path.normalize_join _ _

theorem outputPath_inside (outputDir fileName : Text) :
    (outputPath outputDir fileName).normalize.StrictlyBelow (Path.ofString outputDir).normalize ↔
      StaysInside outputDir fileName := by
  rw [normalize_outputPath, Location.strictlyBelow_graft, StaysInside]

/-- Nothing of a name is lost at its last dot but the dot. -/
theorem Path.mem_splitAtDot {name : List Char} {c : Char}
    (h : c ∈ (Path.splitAtDot name).1 ∨ c ∈ (Path.splitAtDot name).2.getD []) : c ∈ name := by
  unfold Path.splitAtDot at h
  dsimp only at h
  split at h
  · simpa using h
  · rcases h with h | h
    · have hb : c ∈ name.reverse.dropWhile (· ≠ '.') :=
        List.mem_of_mem_drop (List.mem_reverse.mp h)
      exact List.mem_reverse.mp ((List.dropWhile_sublist _).mem hb)
    · have ha : c ∈ name.reverse.takeWhile (· ≠ '.') := by simpa using h
      exact List.mem_reverse.mp ((List.takeWhile_sublist _).mem ha)

namespace Alpn

theorem slash_not_mem_stem (path : Path) : '/' ∉ path.fileStem.getD [] := by
  rw [Path.fileStem]
  cases hn : path.fileName with
  | none => simp
  | some n => exact fun h => n.property.2.2.2 (Path.mem_splitAtDot (.inl h))

theorem slash_not_mem_extension (path : Path) :
    '/' ∉ (path.extension.map ('.' :: ·)).getD [] := by
  rw [Path.extension]
  cases hn : path.fileName with
  | none => simp
  | some n =>
    have hno := fun h => n.property.2.2.2 (Path.mem_splitAtDot (.inr h))
    cases he : (Path.splitAtDot n.val).2 with
    | none => simp [he]
    | some ext => simpa [he] using hno

/-- A candidate is one ordinary name behind the parent of the path. -/
theorem candidate_eq_join (path : Path) (suffix : Text) (hs : ' ' ∈ suffix) (hn : '/' ∉ suffix) :
    ∃ n : Name,
      n.val = path.fileStem.getD [] ++ suffix ++ (path.extension.map ('.' :: ·)).getD [] ∧
      candidate path suffix =
        (path.parent.getD (Path.ofString ['.'])).join ⟨false, [.normal n]⟩ := by
  obtain ⟨n, hn⟩ : ∃ n : Name,
      n.val = path.fileStem.getD [] ++ suffix ++ (path.extension.map ('.' :: ·)).getD [] := by
    have hmem : ' ' ∈ path.fileStem.getD [] ++ suffix ++
        (path.extension.map ('.' :: ·)).getD [] := by simp [hs]
    have hstem := slash_not_mem_stem path
    have hext := slash_not_mem_extension path
    refine ⟨⟨_, List.ne_nil_of_mem hmem, ?_, ?_, ?_⟩, rfl⟩
    · exact fun h => absurd (h ▸ hmem) (by decide)
    · exact fun h => absurd (h ▸ hmem) (by decide)
    · simp only [List.mem_append, not_or]
      exact ⟨⟨hstem, hn⟩, hext⟩
  exact ⟨n, hn, by rw [candidate, ← hn, Path.ofString_name]⟩

theorem slash_not_mem_numbered (i : Nat) : '/' ∉ numbered i := by
  have hd : '/' ∉ Nat.toDigits 10 i := fun h =>
    absurd (Nat.isDigit_of_mem_toDigits (by omega) (by omega) h) (by decide)
  simp [numbered, hd]

/-- A taken path is replaced by a candidate. -/
theorem uniquePath_eq_join {fs : Files} {path : Path} (h : fs.exists? path) :
    ∃ n : Name, uniquePath fs path =
      (path.parent.getD (Path.ofString ['.'])).join ⟨false, [.normal n]⟩ := by
  simp only [uniquePath, if_pos h]
  cases hf : List.find? _ _ with
  | none =>
    obtain ⟨n, -, hn⟩ := candidate_eq_join path copySuffix (by decide) (by decide)
    exact ⟨n, hn⟩
  | some p =>
    obtain ⟨i, _, rfl⟩ := List.mem_map.mp (List.mem_of_find?_eq_some hf)
    obtain ⟨n, -, hn⟩ := candidate_eq_join path (numbered i) (by simp [numbered])
      (slash_not_mem_numbered i)
    exact ⟨n, hn⟩

theorem fileName_join_name (p : Path) (n : Name) :
    (p.join ⟨false, [.normal n]⟩).fileName = some n := by
  unfold Path.join Path.fileName
  by_cases hp : p = ⟨false, []⟩ <;> simp [hp, Path.moves]

/-- A name is no longer than what is left and right of its last dot, and the dot. -/
theorem length_le_splitAtDot (name : List Char) :
    name.length ≤ (Path.splitAtDot name).1.length +
      (((Path.splitAtDot name).2.map ('.' :: ·)).getD []).length := by
  unfold Path.splitAtDot
  dsimp only
  have hlen := congrArg List.length (List.takeWhile_append_dropWhile (p := (· ≠ '.')) (l := name.reverse))
  rw [List.length_append, List.length_reverse] at hlen
  split
  · simp
  · simp only [List.length_reverse, List.length_drop, Option.map_some, Option.getD_some,
      List.length_cons]
    omega

/-- A candidate is not the path that it stands in for. -/
theorem candidate_ne (path : Path) (suffix : Text) (hs : ' ' ∈ suffix) (hn : '/' ∉ suffix) :
    candidate path suffix ≠ path := by
  obtain ⟨n, hval, hc⟩ := candidate_eq_join path suffix hs hn
  intro heq
  have hname : path.fileName = some n := by
    rw [← heq, hc, fileName_join_name]
  have hpos := List.length_pos_of_mem hs
  have hle := length_le_splitAtDot n.val
  have hlen := congrArg List.length hval
  simp only [Path.fileStem, Path.extension, hname, Option.map_some, Option.bind_some,
    Option.getD_some, List.length_append] at hlen
  omega

theorem uniquePath_ne {fs : Files} {path : Path} (h : fs.exists? path) :
    uniquePath fs path ≠ path := by
  simp only [uniquePath, if_pos h]
  cases hf : List.find? _ _ with
  | none => exact candidate_ne path copySuffix (by decide) (by decide)
  | some p =>
    obtain ⟨i, _, rfl⟩ := List.mem_map.mp (List.mem_of_find?_eq_some hf)
    exact candidate_ne path (numbered i) (by simp [numbered]) (slash_not_mem_numbered i)

end Alpn

/-- Only the first component of a parsed path can be the current directory. -/
theorem Path.ofString_parts (s : List Char) :
    (ofString s).parts = moves (ofString s).parts ∨
      (ofString s).parts = .curDir :: moves (ofString s).parts := by
  unfold ofString
  split
  · simp
  · cases hp : pieces s with
    | nil => exact .inl rfl
    | cons part parts =>
      cases part with
      | curDir => exact .inr (by simp [moves])
      | parentDir => exact .inl (by simp [moves])
      | normal n => exact .inl (by simp [moves])

theorem Path.normalize_dropLast_moves {p : Path} (hne : moves p.parts ≠ [])
    (hp : p.parts = moves p.parts ∨ p.parts = .curDir :: moves p.parts) :
    normalize ⟨p.root, p.parts.dropLast⟩ = normalize ⟨p.root, (moves p.parts).dropLast⟩ := by
  rcases hp with hp | hp
  · rw [← hp]
  · conv_lhs => rw [hp, List.dropLast_cons_of_ne_nil hne]
    rfl

theorem Path.moves_dropLast_moves (parts : List Part) :
    moves (moves parts).dropLast = (moves parts).dropLast := by
  refine List.filter_eq_self.mpr fun part hp => ?_
  exact (List.mem_filter.mp (List.mem_of_mem_dropLast hp)).2

/-- A base without a moving argument stays what it is. -/
theorem Path.join_of_moves_eq_nil (p q : Path) (h : moves q.parts = []) :
    p.join q = if q.root ∨ p = ⟨false, []⟩ then q else p := by
  unfold join
  by_cases hr : q.root <;> by_cases hp : p = ⟨false, []⟩ <;> simp [hr, hp, h]

/-- The parent of a joined path is the base joined with all but the last part. -/
theorem Path.normalize_parent_join (p q : Path) (hne : moves q.parts ≠ [])
    (hq : q.parts = moves q.parts ∨ q.parts = .curDir :: moves q.parts) :
    ∃ d, (p.join q).parent = some d ∧
      d.normalize = (p.join ⟨q.root, (moves q.parts).dropLast⟩).normalize := by
  have hparts : q.parts ≠ [] := fun h => hne (by simp [h, moves])
  by_cases hr : q.root
  · refine ⟨⟨q.root, q.parts.dropLast⟩, by simp [join, hr, parent, hparts], ?_⟩
    rw [normalize_dropLast_moves hne hq]
    simp [join, hr]
  · by_cases hp : p = ⟨false, []⟩
    · refine ⟨⟨q.root, q.parts.dropLast⟩, by simp [join, hr, hp, parent, hparts], ?_⟩
      rw [normalize_dropLast_moves hne hq]
      simp [join, hr, hp]
    · refine ⟨⟨p.root, (p.parts ++ moves q.parts).dropLast⟩, by simp [join, hr, hp, parent, hne], ?_⟩
      rw [List.dropLast_append_of_ne_nil hne]
      simp [join, hr, hp, moves_dropLast_moves]

/-- Where the parent of the output path lies. -/
theorem parent_outputPath_within (outputDir fileName : Text) :
    ((outputPath outputDir fileName).parent.getD (Path.ofString ['.'])).normalize.Within
        (Path.ofString outputDir).normalize ↔ ParentStaysInside outputDir fileName := by
  unfold ParentStaysInside outputPath
  by_cases hm : Path.moves (Path.ofString fileName).parts = []
  · rw [if_pos hm, Path.join_of_moves_eq_nil _ _ hm]
  · obtain ⟨d, hd, hn⟩ := Path.normalize_parent_join (Path.ofString outputDir) _ hm
      (Path.ofString_parts fileName)
    rw [if_neg hm, hd, Option.getD_some, hn, Path.normalize_join, Location.within_graft]

theorem Path.normalize_join_name (p : Path) (n : Name) :
    (p.join ⟨false, [.normal n]⟩).normalize = p.normalize.push (.normal n) := by
  have hn : normalize ⟨false, [.normal n]⟩ = Location.push ⟨.up 0, []⟩ (.normal n) := rfl
  rw [normalize_join, hn, ← Location.push_graft _ _ 0 rfl, Location.graft_nil]

/-- The ordinary names that senders announce stay inside. -/
theorem staysInside_of_name (outputDir : Text) (n : Name) : StaysInside outputDir n.val := by
  rw [← outputPath_inside, outputPath, Path.ofString_name, Path.normalize_join_name,
    Location.strictlyBelow_push_normal]
  exact ⟨rfl, List.prefix_rfl⟩

theorem parentStaysInside_of_name (outputDir : Text) (n : Name) :
    ParentStaysInside outputDir n.val := by
  have hn : (Path.ofString n.val) = ⟨false, [.normal n]⟩ := Path.ofString_name n
  obtain ⟨d, hd, hnorm⟩ := Path.normalize_parent_join (Path.ofString outputDir)
    (Path.ofString n.val) (by simp [hn, Path.moves]) (.inl (by simp [hn, Path.moves]))
  rw [← parent_outputPath_within, outputPath, hd, Option.getD_some, hnorm, Path.normalize_join, hn]
  have hnil : Path.normalize ⟨false, (Path.moves [.normal n]).dropLast⟩ = ⟨.up 0, []⟩ := rfl
  rw [hnil, Location.graft_nil]
  exact ⟨rfl, List.prefix_rfl⟩

namespace Alpn

theorem finalPath_inside (fs : Files) (outputDir : Text) (request : TransferRequest) :
    (finalPath fs outputDir request).normalize.StrictlyBelow (Path.ofString outputDir).normalize ↔
      if request.forceRestart ∧ fs.exists? (outputPath outputDir request.fileName) then
        ParentStaysInside outputDir request.fileName
      else StaysInside outputDir request.fileName := by
  unfold finalPath isResume
  by_cases hx : fs.exists? (outputPath outputDir request.fileName)
  · cases hf : request.forceRestart with
    | false => simp [hx, outputPath_inside]
    | true =>
      obtain ⟨n, hn⟩ := uniquePath_eq_join hx
      rw [if_neg (by simp), if_pos ⟨rfl, hx⟩, hn, Path.normalize_join_name,
        Location.strictlyBelow_push_normal]
      exact parent_outputPath_within outputDir request.fileName
  · simp [hx, uniquePath, outputPath_inside]

end Alpn

theorem lanFileOps_inside (heedsRestart : Bool) {C : Primitives} (fs : Files) (outputDir : Text)
    (metadata : TransferMetadata C) (failed : Bool) :
    Inside outputDir (lanFileOps heedsRestart fs outputDir metadata failed) ↔
      StaysInside outputDir metadata.fileName := by
  rw [lanFileOps, inside_outputOps, outputPath_inside]

theorem Cli.fileOps_inside {C : Primitives} (outputDir : Text) (metadata : TransferMetadata C) :
    Inside outputDir (fileOps outputDir metadata) ↔ StaysInside outputDir metadata.fileName := by
  rw [← outputPath_inside]
  simp [Inside, fileOps, FileOp.path]

/-- **Path containment.** Each receiver stays in its output directory exactly for
the file names whose components lead there. -/
theorem file_ops_inside_iff (C : Primitives) (fs : Files) (outputDir : Text) :
    (∀ (request : Alpn.TransferRequest) (failed : Bool),
      Inside outputDir (Alpn.fileOps fs outputDir request failed) ↔
        if request.forceRestart ∧ fs.exists? (outputPath outputDir request.fileName) then
          ParentStaysInside outputDir request.fileName
        else StaysInside outputDir request.fileName) ∧
    ∀ metadata : TransferMetadata C,
      (∀ failed : Bool,
        (Inside outputDir (TcpCompat.fileOps fs outputDir metadata failed) ↔
          StaysInside outputDir metadata.fileName) ∧
        (Inside outputDir (Gui.fileOps fs outputDir metadata failed) ↔
          StaysInside outputDir metadata.fileName)) ∧
      (Inside outputDir (Cli.fileOps outputDir metadata) ↔
        StaysInside outputDir metadata.fileName) := by
  refine ⟨fun request failed => ?_, fun metadata => ⟨fun failed => ⟨?_, ?_⟩, ?_⟩⟩
  · rw [Alpn.fileOps, inside_outputOps, Alpn.finalPath_inside]
  · exact lanFileOps_inside true fs outputDir metadata failed
  · exact lanFileOps_inside false fs outputDir metadata failed
  · exact Cli.fileOps_inside outputDir metadata

/-- The name `../x` leaves the directory `/d` in every receiver. -/
theorem file_ops_escape :
    let dir : Text := ['/', 'd']
    let name : Text := ['.', '.', '/', 'x']
    let fs : Files := fun _ => none
    let metadata : TransferMetadata Primitives.plain :=
      ⟨[], name, 1, minChunkSize, 1, [0], 0, false, [0, 0, 0, 0], false⟩
    ¬ Inside dir (Alpn.fileOps fs dir ⟨[], name, 1, false⟩ false) ∧
      ¬ Inside dir (TcpCompat.fileOps fs dir metadata false) ∧
      ¬ Inside dir (Gui.fileOps fs dir metadata false) ∧
      ¬ Inside dir (Cli.fileOps dir metadata) := by
  decide

end P2PTransfer
