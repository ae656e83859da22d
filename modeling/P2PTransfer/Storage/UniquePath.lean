import P2PTransfer.Storage.OutputPath

/-!
# The path that `unique_path` makes up

`unique_path` tries 999 numbered names beside a path that exists, and then takes the name with
`(copy)` without looking whether it exists. With that many copies the QUIC receiver creates its
file in the place of one of them.

## Main definitions

- `Exhausted` — the path, the numbered names and the last name exist
- `NamesNoFile` — the path that is made up does not exist, and creating it harms no file

## Main results

- `namesNoFile_iff` — `unique_path` names an existing file exactly if all names exist
- `fileOps_create_free_iff` — and when the receiver creates its file in such a place
-/

namespace P2PTransfer.Alpn

/-- `File::create`, which truncates a file that exists. -/
def create (fs : Files) (path : Path) : Files := fs.set path (some [])

/-- All names that `unique_path` knows exist. -/
def Exhausted (fs : Files) (path : Path) : Prop :=
  fs.exists? path ∧ (∀ i, 1 ≤ i → i < 1000 → fs.exists? (candidate path (numbered i))) ∧
    fs.exists? (candidate path copySuffix)

/-- The path that `unique_path` returns does not exist, so that its creation leaves every file
that exists as it is. -/
structure NamesNoFile (fs : Files) (path : Path) : Prop where
  free : fs.exists? (uniquePath fs path) = false
  kept : ∀ p content, fs p = some content → create fs (uniquePath fs path) p = some content

/-- The numbered names, in the order in which they are tried. -/
def numberedPaths (path : Path) : List Path :=
  (List.range' 1 999).map fun i => candidate path (numbered i)

section Choice

variable {fs : Files} {path : Path}

theorem numbered_taken_iff :
    (∀ p ∈ numberedPaths path, fs.exists? p) ↔
      ∀ i, 1 ≤ i → i < 1000 → fs.exists? (candidate path (numbered i)) := by
  simp only [numberedPaths, List.forall_mem_map, List.mem_range'_1, and_imp]

theorem uniquePath_of_taken (h : fs.exists? path) :
    uniquePath fs path = ((numberedPaths path).find? fun p => !fs.exists? p).getD
      (candidate path copySuffix) := by
  rw [uniquePath, if_pos h]
  rfl

theorem exists?_eq_false : fs.exists? path = false ↔ fs path = none := by
  rw [Files.exists?, Option.isSome_eq_false_iff, Option.isNone_iff_eq_none]

theorem uniquePath_of_free (h : fs.exists? path = false) : uniquePath fs path = path := by
  rw [uniquePath, h]
  rfl

/-- The name with `(copy)` is taken unseen. -/
theorem uniquePath_of_exhausted (h : Exhausted fs path) :
    uniquePath fs path = candidate path copySuffix := by
  obtain ⟨hpath, hnumbered, -⟩ := h
  have hnone : ((numberedPaths path).find? fun p => !fs.exists? p) = none := by
    apply List.find?_eq_none.mpr
    intro p hp
    have htaken : fs.exists? p := numbered_taken_iff.mpr hnumbered p hp
    rw [htaken]
    decide
  rw [uniquePath_of_taken hpath, hnone, Option.getD_none]

/-- Where one of the names is free, the path that is returned is free. -/
theorem uniquePath_free (h : ¬ Exhausted fs path) : fs.exists? (uniquePath fs path) = false := by
  by_cases hpath : fs.exists? path
  · rw [uniquePath_of_taken hpath]
    cases hfind : (numberedPaths path).find? fun p => !fs.exists? p with
    | some p =>
      have hfree := List.find?_some hfind
      simpa using hfree
    | none =>
      -- all numbers are taken, so that the last name is the free one
      have hnumbered : ∀ p ∈ numberedPaths path, fs.exists? p := by
        intro p hp
        simpa using List.find?_eq_none.mp hfind p hp
      apply Bool.eq_false_of_not_eq_true
      intro hcopy
      exact h ⟨hpath, numbered_taken_iff.mp hnumbered, hcopy⟩
  · have hfree : fs.exists? path = false := Bool.eq_false_of_not_eq_true hpath
    rw [uniquePath_of_free hfree, hfree]

/-- A path that does not exist harms no file. -/
theorem create_of_free (h : fs.exists? path = false) {p : Path} {content : Bytes}
    (hp : fs p = some content) : create fs path p = some content := by
  have hne : p ≠ path := by
    rintro rfl
    rw [exists?_eq_false.mp h] at hp
    cases hp
  rw [create, Files.set, Function.update_of_ne hne, hp]

/-- **When `unique_path` names no existing file.** Exactly if one of the names that it knows is
free: the path itself, a numbered one, or the one with `(copy)`. -/
theorem namesNoFile_iff (fs : Files) (path : Path) :
    NamesNoFile fs path ↔ ¬ Exhausted fs path := by
  constructor
  · rintro ⟨hfree, -⟩ hall
    rw [uniquePath_of_exhausted hall, hall.2.2] at hfree
    cases hfree
  · intro h
    have hfree := uniquePath_free h
    exact ⟨hfree, fun p content hp => create_of_free hfree hp⟩

end Choice

/-- All the names of a path. -/
def names (path : Path) : List Path :=
  path :: candidate path copySuffix :: numberedPaths path

/-- The files of a folder that holds all the names of a path, with one byte each. -/
def copies (path : Path) : Files := fun p => if p ∈ names path then some [1] else none

theorem exists?_copies {path p : Path} (h : p ∈ names path) : (copies path).exists? p := by
  rw [Files.exists?, copies, if_pos h]
  rfl

theorem exhausted_copies (path : Path) : Exhausted (copies path) path := by
  refine ⟨exists?_copies List.mem_cons_self, ?_, ?_⟩
  · apply numbered_taken_iff.mp
    intro p hp
    exact exists?_copies (.tail _ (.tail _ hp))
  · exact exists?_copies (.tail _ List.mem_cons_self)

/-- A file that is there a thousand times and once more: creating the path that is returned
empties the one with `(copy)`. -/
theorem not_namesNoFile_copies :
    ¬ NamesNoFile (copies (Path.ofString "dl/a.txt".toList)) (Path.ofString "dl/a.txt".toList) := by
  rintro ⟨hfree, -⟩
  have hall := exhausted_copies (Path.ofString "dl/a.txt".toList)
  rw [uniquePath_of_exhausted hall, hall.2.2] at hfree
  cases hfree

section Receiver

variable {fs : Files} {outputDir : Text} {request : TransferRequest} {failed : Bool}

/-- A file is created only at the final path, and not to resume. -/
theorem create_mem_fileOps {p : Path} :
    .create p ∈ fileOps fs outputDir request failed ↔
      isResume fs outputDir request = false ∧ p = finalPath fs outputDir request := by
  rw [fileOps, outputOps]
  cases isResume fs outputDir request <;> cases failed <;> simp

/-- A transfer that starts anew does so for a path that is free, or because it has to. -/
theorem isResume_eq_false :
    isResume fs outputDir request = false ↔ request.forceRestart = true ∨
      fs.exists? (outputPath outputDir request.fileName) = false := by
  rw [isResume, Bool.and_eq_false_iff, Bool.not_eq_false']

theorem finalPath_of_fresh (h : isResume fs outputDir request = false) :
    finalPath fs outputDir request = uniquePath fs (outputPath outputDir request.fileName) := by
  rw [finalPath, h]
  rfl

/-- The receiver creates its file in the place of another exactly if a restart is asked for and
all names exist. -/
theorem fileOps_create_free_iff :
    (∀ p, .create p ∈ fileOps fs outputDir request failed → fs.exists? p = false) ↔
      ¬ (request.forceRestart = true ∧ Exhausted fs (outputPath outputDir request.fileName)) := by
  constructor
  · rintro h ⟨hrestart, hall⟩
    have hfresh : isResume fs outputDir request = false := isResume_eq_false.mpr (.inl hrestart)
    have hfree := h _ (create_mem_fileOps.mpr ⟨hfresh, rfl⟩)
    rw [finalPath_of_fresh hfresh, uniquePath_of_exhausted hall, hall.2.2] at hfree
    cases hfree
  · intro h p hp
    obtain ⟨hfresh, rfl⟩ := create_mem_fileOps.mp hp
    rw [finalPath_of_fresh hfresh]
    apply uniquePath_free
    intro hall
    rcases isResume_eq_false.mp hfresh with hrestart | hfree
    · exact h ⟨hrestart, hall⟩
    · rw [hall.1] at hfree
      cases hfree

end Receiver

end P2PTransfer.Alpn
