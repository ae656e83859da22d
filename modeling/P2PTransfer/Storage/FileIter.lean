import P2PTransfer.Storage.Path

/-!
# The files of a folder

`FileIterator` goes through the files below a folder in the order of their paths, in whatever order
the file system lists its directories. `get_dir_size` adds up the sizes of the same files.

## Main definitions

- `Entries` — what `read_dir` gives for a directory and the directories in it
- `collectFiles`, `getDirSize` — the two walks
- `FileIterator` — the files in order, and how many have been taken
- `Entries.Lists` — the files of a folder, whatever their order
-/

namespace P2PTransfer

/-- The entries of a directory in the order of `read_dir`, to the end or to an error. A link stands
with its own length and what it leads to; where it leads to nothing there is no size. -/
inductive Entries where
  | done
  | error
  | file (name : Name) (size : Nat) (more : Entries)
  | folder (name : Name) (inside more : Entries)
  | fileLink (name : Name) (own : Nat) (size : Option Nat) (more : Entries)
  | folderLink (name : Name) (own : Nat) (inside more : Entries)

/-- `DirEntry::path`. -/
def Path.entry (dir : Path) (name : Name) : Path := dir.join (Path.ofString name.val)

/-- `collect_files`, which follows links. -/
def collectFiles (dir : Path) : Entries → Option (List Path)
  | .done => some []
  | .error => none
  | .file name _ more | .fileLink name _ _ more =>
    (collectFiles dir more).map (dir.entry name :: ·)
  | .folder name inside more | .folderLink name _ inside more =>
    (collectFiles (dir.entry name) inside).bind fun files =>
      (collectFiles dir more).map (files ++ ·)

/-- `get_dir_size`. `DirEntry::metadata` does not follow links. -/
def getDirSize : Entries → Option Nat
  | .done => some 0
  | .error => none
  | .file _ size more => (getDirSize more).map (size + ·)
  | .folder _ inside more =>
    (getDirSize inside).bind fun total => (getDirSize more).map (total + ·)
  | .fileLink _ own _ more | .folderLink _ own _ more => (getDirSize more).map (own + ·)

/-- The order of components: the root is the first of all, then come `.` and `..`. -/
def Part.rank : Part → ℕ ×ₗ List Char
  | .curDir => toLex (1, [])
  | .parentDir => toLex (2, [])
  | .normal name => toLex (3, name.val)

def Path.key (p : Path) : List (ℕ ×ₗ List Char) :=
  (if p.root then [toLex (0, [])] else []) ++ p.parts.map Part.rank

theorem Part.rank_injective : Function.Injective Part.rank := by
  intro p q h
  cases p with
  | curDir => cases q <;> simp_all [Part.rank]
  | parentDir => cases q <;> simp_all [Part.rank]
  | normal n =>
    cases q with
    | normal m =>
      have hname : n.val = m.val := congrArg (fun r => (ofLex r).2) h
      rw [Subtype.ext hname]
    | _ => simp [Part.rank] at h

theorem Part.rank_ne_zero (p : Part) : p.rank ≠ toLex (0, []) := by
  cases p <;> simp [Part.rank]

theorem Path.key_injective : Function.Injective Path.key := by
  rintro ⟨root, parts⟩ ⟨root', parts'⟩ h
  have hparts : ∀ qs : List Part, toLex ((0 : ℕ), ([] : List Char)) ∉ qs.map Part.rank := by
    intro qs hmem
    obtain ⟨p, -, hp⟩ := List.mem_map.mp hmem
    exact p.rank_ne_zero hp
  cases root with
  | false =>
    cases root' with
    | false => exact congrArg (Path.mk false) (List.map_injective_iff.mpr Part.rank_injective h)
    | true =>
      have hsame : parts.map Part.rank = toLex (0, []) :: parts'.map Part.rank := h
      exact absurd (hsame ▸ List.mem_cons_self) (hparts parts)
  | true =>
    cases root' with
    | false =>
      have hsame : parts'.map Part.rank = toLex (0, []) :: parts.map Part.rank := h.symm
      exact absurd (hsame ▸ List.mem_cons_self) (hparts parts')
    | true =>
      exact congrArg (Path.mk true)
        (List.map_injective_iff.mpr Part.rank_injective (List.cons.inj h).2)

/-- `Ord for Path`. -/
instance : LinearOrder Path := LinearOrder.lift' Path.key Path.key_injective

/-- What is at the path that is asked for. -/
inductive Target where
  | file
  | dir (listing : Entries)
  | other

structure FileIterator where
  entries : List Path
  index : Nat

namespace FileIterator

def sort (paths : List Path) : List Path := paths.mergeSort fun p q => decide (p ≤ q)

/-- What is no directory is taken for a file, also if there is nothing. -/
def new (path : Path) : Target → Option FileIterator
  | .file => some ⟨[path], 0⟩
  | .dir listing => (collectFiles path listing).map fun files => ⟨sort files, 0⟩
  | .other => some ⟨sort [path], 0⟩

def totalFiles (it : FileIterator) : Nat := it.entries.length

/-- `saturating_sub` -/
def remaining (it : FileIterator) : Nat := it.entries.length - it.index

def next (it : FileIterator) : Option Path × FileIterator :=
  match it.entries[it.index]? with
  | none => (none, it)
  | some entry => (some entry, { it with index := it.index + 1 })

/-- What the first `n` calls of `next` return. -/
def take : Nat → FileIterator → List Path × FileIterator
  | 0, it => ([], it)
  | n + 1, it => match it.next with
    | (none, it) => ([], it)
    | (some entry, it) => (entry :: (take n it).1, (take n it).2)

end FileIterator

namespace Entries

/-- A file below the directory, by its names, with the size that it has where it is read. -/
def Lists : Entries → List Name → Option Nat → Prop
  | .done, _, _ | .error, _, _ => False
  | .file name size more, names, n => (names = [name] ∧ n = some size) ∨ more.Lists names n
  | .fileLink name _ size more, names, n => (names = [name] ∧ n = size) ∨ more.Lists names n
  | .folder name inside more, names, n | .folderLink name _ inside more, names, n =>
    (∃ rest, names = name :: rest ∧ inside.Lists rest n) ∨ more.Lists names n

def names : Entries → List Name
  | .done | .error => []
  | .file name _ more | .fileLink name _ _ more | .folder name _ more | .folderLink name _ _ more =>
    name :: names more

/-- No directory has two entries of one name. -/
def Distinct : Entries → Prop
  | .done | .error => True
  | .file name _ more | .fileLink name _ _ more => name ∉ more.names ∧ more.Distinct
  | .folder name inside more | .folderLink name _ inside more =>
    name ∉ more.names ∧ inside.Distinct ∧ more.Distinct

/-- Somewhere the walk meets an error. -/
def Fails : Entries → Prop
  | .done => False
  | .error => True
  | .file _ _ more | .fileLink _ _ _ more => more.Fails
  | .folder _ inside more | .folderLink _ _ inside more => inside.Fails ∨ more.Fails

/-- `file_size` of a file below the directory. -/
def fileSize : Entries → List Name → Option Nat
  | .done, _ | .error, _ => none
  | .file name size more, names => if names = [name] then some size else more.fileSize names
  | .fileLink name _ size more, names => if names = [name] then size else more.fileSize names
  | .folder name inside more, names | .folderLink name _ inside more, names =>
    if names.head? = some name then inside.fileSize names.tail else more.fileSize names

def Linkless : Entries → Prop
  | .done | .error => True
  | .file _ _ more => more.Linkless
  | .folder _ inside more => inside.Linkless ∧ more.Linkless
  | .fileLink _ _ _ _ | .folderLink _ _ _ _ => False

end Entries

/-- The path of a file below a directory. -/
def Path.below (dir : Path) (names : List Name) : Path := names.foldl Path.entry dir

theorem Path.entry_eq (dir : Path) (name : Name) :
    dir.entry name = ⟨dir.root, dir.parts ++ [.normal name]⟩ := by
  rw [Path.entry, Path.ofString_name, Path.join]
  split
  · next h => cases h
  · split
    · next h => rw [h]; rfl
    · rfl

theorem Path.below_eq (dir : Path) (names : List Name) :
    dir.below names = ⟨dir.root, dir.parts ++ names.map .normal⟩ := by
  induction names generalizing dir with
  | nil => rw [List.map_nil, List.append_nil]; rfl
  | cons name names ih =>
    rw [Path.below, List.foldl_cons, ← Path.below, ih, Path.entry_eq, List.map_cons,
      List.append_assoc]
    rfl

theorem Path.below_injective (dir : Path) : Function.Injective dir.below := by
  intro names names' h
  rw [Path.below_eq, Path.below_eq, Path.mk.injEq] at h
  have hname : Function.Injective Part.normal := fun _ _ he => Part.normal.inj he
  exact List.map_injective_iff.mpr hname (List.append_cancel_left h.2)

section Collect

variable {e : Entries} {dir p : Path} {files : List Path} {names : List Name} {n : Option Nat}

theorem Entries.Lists.head (h : e.Lists names n) :
    ∃ name rest, names = name :: rest ∧ name ∈ e.names := by
  induction e with
  | done => exact h.elim
  | error => exact h.elim
  | file name _ more ih | fileLink name _ _ more ih =>
    rcases h with ⟨rfl, -⟩ | h
    · exact ⟨name, [], rfl, List.mem_cons_self⟩
    · obtain ⟨other, rest, hnames, hmem⟩ := ih h
      exact ⟨other, rest, hnames, List.mem_cons_of_mem _ hmem⟩
  | folder name _ more _ ih | folderLink name _ _ more _ ih =>
    rcases h with ⟨rest, rfl, -⟩ | h
    · exact ⟨name, rest, rfl, List.mem_cons_self⟩
    · obtain ⟨other, rest, hnames, hmem⟩ := ih h
      exact ⟨other, rest, hnames, List.mem_cons_of_mem _ hmem⟩

theorem collectFiles_eq_none : collectFiles dir e = none ↔ e.Fails := by
  induction e generalizing dir with
  | done => simp [collectFiles, Entries.Fails]
  | error => simp [collectFiles, Entries.Fails]
  | file name _ more ih | fileLink name _ _ more ih =>
    rw [collectFiles, Option.map_eq_none_iff, ih, Entries.Fails]
  | folder name inside more ihInside ih | folderLink name _ inside more ihInside ih =>
    have hinside : collectFiles (dir.entry name) inside = none ↔ inside.Fails := ihInside
    have hmore : collectFiles dir more = none ↔ more.Fails := ih
    rw [collectFiles, Entries.Fails, ← hinside, ← hmore]
    cases collectFiles (dir.entry name) inside <;> simp

/-- The walk through a directory: the files of its first folder, and the others. -/
theorem collectFiles_folder {inside more : Entries} {name : Name}
    (h : ((collectFiles (dir.entry name) inside).bind fun files =>
      (collectFiles dir more).map (files ++ ·)) = some files) :
    ∃ first others, collectFiles (dir.entry name) inside = some first ∧
      collectFiles dir more = some others ∧ files = first ++ others := by
  obtain ⟨first, hfirst, hrest⟩ := Option.bind_eq_some_iff.mp h
  obtain ⟨others, hothers, rfl⟩ := Option.map_eq_some_iff.mp hrest
  exact ⟨first, others, hfirst, hothers, rfl⟩

theorem mem_collectFiles (h : collectFiles dir e = some files) :
    p ∈ files ↔ ∃ names n, e.Lists names n ∧ p = dir.below names := by
  induction e generalizing dir files with
  | done =>
    obtain rfl := Option.some.inj h
    simp [Entries.Lists]
  | error => cases h
  | file name _ more ih | fileLink name _ _ more ih =>
    obtain ⟨others, hothers, rfl⟩ := Option.map_eq_some_iff.mp h
    rw [List.mem_cons, ih hothers]
    constructor
    · rintro (rfl | ⟨names, n, hlists, rfl⟩)
      · exact ⟨[name], _, .inl ⟨rfl, rfl⟩, rfl⟩
      · exact ⟨names, n, .inr hlists, rfl⟩
    · rintro ⟨names, n, ⟨rfl, -⟩ | hlists, rfl⟩
      · exact .inl rfl
      · exact .inr ⟨names, n, hlists, rfl⟩
  | folder name inside more ihInside ih | folderLink name _ inside more ihInside ih =>
    obtain ⟨first, others, hfirst, hothers, rfl⟩ := collectFiles_folder h
    rw [List.mem_append, ihInside hfirst, ih hothers]
    constructor
    · rintro (⟨rest, n, hlists, rfl⟩ | ⟨names, n, hlists, rfl⟩)
      · exact ⟨name :: rest, n, .inl ⟨rest, rfl, hlists⟩, rfl⟩
      · exact ⟨names, n, .inr hlists, rfl⟩
    · rintro ⟨names, n, ⟨rest, rfl, hlists⟩ | hlists, rfl⟩
      · exact .inl ⟨rest, n, hlists, rfl⟩
      · exact .inr ⟨names, n, hlists, rfl⟩

theorem Path.entry_below (dir : Path) (name : Name) (names : List Name) :
    (dir.entry name).below names = dir.below (name :: names) := rfl

/-- What begins with a name that is not there is not listed. -/
theorem not_mem_collectFiles {name : Name} (h : collectFiles dir e = some files)
    (hname : name ∉ e.names) (rest : List Name) : dir.below (name :: rest) ∉ files := by
  intro hmem
  obtain ⟨names, n, hlists, heq⟩ := (mem_collectFiles h).mp hmem
  obtain ⟨other, rest', rfl, hother⟩ := hlists.head
  obtain ⟨rfl, -⟩ := List.cons.inj (dir.below_injective heq)
  exact hname hother

theorem nodup_collectFiles (h : collectFiles dir e = some files) (hd : e.Distinct) :
    files.Nodup := by
  induction e generalizing dir files with
  | done =>
    obtain rfl := Option.some.inj h
    exact List.nodup_nil
  | error => cases h
  | file name _ more ih | fileLink name _ _ more ih =>
    obtain ⟨others, hothers, rfl⟩ := Option.map_eq_some_iff.mp h
    exact List.nodup_cons.mpr ⟨not_mem_collectFiles hothers hd.1 [], ih hothers hd.2⟩
  | folder name inside more ihInside ih | folderLink name _ inside more ihInside ih =>
    obtain ⟨first, others, hfirst, hothers, rfl⟩ := collectFiles_folder h
    refine List.nodup_append.mpr ⟨ihInside hfirst hd.2.1, ih hothers hd.2.2, ?_⟩
    rintro p hp q hq rfl
    obtain ⟨rest, n, -, rfl⟩ := (mem_collectFiles hfirst).mp hp
    rw [Path.entry_below] at hq
    exact not_mem_collectFiles hothers hd.1 rest hq

end Collect

section Size

variable {e : Entries} {dir p : Path} {files : List Path} {names : List Name}

def Part.name? : Part → Option Name
  | .normal name => some name
  | _ => none

/-- The names that lead from a directory to a path below it. -/
def Path.namesBelow (dir p : Path) : List Name :=
  (p.parts.drop dir.parts.length).filterMap Part.name?

theorem Path.namesBelow_below (dir : Path) (names : List Name) :
    dir.namesBelow (dir.below names) = names := by
  rw [Path.namesBelow, Path.below_eq]
  dsimp only
  rw [List.drop_left, List.filterMap_map]
  exact List.filterMap_some

/-- The sizes of some files, as `file_size` finds them. -/
def Entries.sizes (e : Entries) (dir : Path) (files : List Path) : List Nat :=
  files.map fun p => (e.fileSize (dir.namesBelow p)).getD 0

/-- Sizes that are looked up among some of the entries. -/
theorem sizes_congr {e' : Entries} {dir' : Path}
    (h : ∀ p ∈ files, e.fileSize (dir.namesBelow p) = e'.fileSize (dir'.namesBelow p)) :
    e.sizes dir files = e'.sizes dir' files := by
  apply List.map_congr_left
  intro p hp
  rw [h p hp]

/-- **Sizes.** Without links the size of a folder is that of its files. -/
theorem getDirSize_eq (h : collectFiles dir e = some files) (hd : e.Distinct) (hl : e.Linkless) :
    getDirSize e = some (e.sizes dir files).sum := by
  induction e generalizing dir files with
  | done =>
    obtain rfl := Option.some.inj h
    rfl
  | error => cases h
  | file name size more ih =>
    obtain ⟨others, hothers, rfl⟩ := Option.map_eq_some_iff.mp h
    have hmore : (Entries.file name size more).sizes dir others = more.sizes dir others := by
      apply sizes_congr
      intro p hp
      obtain ⟨names, n, hlists, rfl⟩ := (mem_collectFiles hothers).mp hp
      rw [Path.namesBelow_below, Entries.fileSize, if_neg]
      rintro rfl
      exact not_mem_collectFiles hothers hd.1 [] hp
    have hfirst : (Entries.file name size more).fileSize (dir.namesBelow (dir.entry name)) =
        some size := by
      rw [show dir.entry name = dir.below [name] from rfl, Path.namesBelow_below,
        Entries.fileSize, if_pos rfl]
    have hall : (Entries.file name size more).sizes dir (dir.entry name :: others) =
        size :: more.sizes dir others := by
      rw [← hmore, Entries.sizes, List.map_cons, hfirst]
      rfl
    rw [getDirSize, ih hothers hd.2 hl, hall, List.sum_cons]
    rfl
  | folder name inside more ihInside ih =>
    obtain ⟨first, others, hfirst, hothers, rfl⟩ := collectFiles_folder h
    have hinside : (Entries.folder name inside more).sizes dir first =
        inside.sizes (dir.entry name) first := by
      apply sizes_congr
      intro p hp
      obtain ⟨rest, n, hlists, rfl⟩ := (mem_collectFiles hfirst).mp hp
      rw [Path.namesBelow_below, Path.entry_below, Path.namesBelow_below, Entries.fileSize]
      exact if_pos rfl
    have hmore : (Entries.folder name inside more).sizes dir others = more.sizes dir others := by
      apply sizes_congr
      intro p hp
      obtain ⟨names, n, hlists, rfl⟩ := (mem_collectFiles hothers).mp hp
      rw [Path.namesBelow_below, Entries.fileSize, if_neg]
      intro hhead
      obtain ⟨other, rest, rfl, hother⟩ := hlists.head
      obtain rfl := Option.some.inj hhead
      exact hd.1 hother
    have hsplit : (Entries.folder name inside more).sizes dir (first ++ others) =
        inside.sizes (dir.entry name) first ++ more.sizes dir others := by
      rw [← hinside, ← hmore, Entries.sizes, List.map_append]
      rfl
    rw [getDirSize, ihInside hfirst hd.2.1 hl.1, ih hothers hd.2.2 hl.2, hsplit, List.sum_append]
    rfl
  | fileLink => exact hl.elim
  | folderLink => exact hl.elim

end Size

namespace FileIterator

variable {it : FileIterator} {dir : Path} {listing : Entries}

/-- The iterator after some calls of `next`. -/
theorem take_eq (n : Nat) (h : it.index ≤ it.entries.length) :
    it.take n = ((it.entries.drop it.index).take n,
      { it with index := min (it.index + n) it.entries.length }) := by
  induction n generalizing it with
  | zero => rw [take, List.take_zero, Nat.add_zero, Nat.min_eq_left h]
  | succ n ih =>
    rw [take, next]
    by_cases hend : it.index < it.entries.length
    · rw [List.getElem?_eq_getElem hend, List.drop_eq_getElem_cons hend, List.take_succ_cons]
      have hrest := @ih { it with index := it.index + 1 } hend
      dsimp only at hrest ⊢
      rw [hrest, Nat.add_right_comm, Nat.add_assoc]
    · have hall : it.index = it.entries.length := by omega
      rw [List.getElem?_eq_none (by omega), hall, List.drop_length, List.take_nil]
      dsimp only
      rw [Nat.min_eq_right (by omega), ← hall]

theorem sort_perm (paths : List Path) : (sort paths).Perm paths :=
  List.mergeSort_perm paths _

theorem sort_sorted (paths : List Path) : (sort paths).Pairwise (· ≤ ·) :=
  List.pairwise_mergeSort' (r := (· ≤ ·)) paths

/-- The same files in another order give the same list. -/
theorem sort_eq_of_mem {paths others : List Path} (hnodup : paths.Nodup) (hothers : others.Nodup)
    (hmem : ∀ p, p ∈ paths ↔ p ∈ others) : sort paths = sort others := by
  have hperm : (sort paths).Perm (sort others) :=
    (sort_perm paths).trans (((List.perm_ext_iff_of_nodup hnodup hothers).mpr hmem).trans
      (sort_perm others).symm)
  exact hperm.eq_of_pairwise' (sort_sorted paths) (sort_sorted others)

/-- **Every file once, in order.** The walk through a folder fails exactly if it meets an error.
Otherwise the iterator returns the paths of all files of the folder in increasing order, each one
once, and the same ones for every order in which the directories are listed; and the size of a
folder without links is the sum of their sizes. -/
theorem new_dir (dir : Path) (listing : Entries) (hd : listing.Distinct) :
    (new dir (.dir listing) = none ↔ listing.Fails) ∧
      ∀ it, new dir (.dir listing) = some it →
        it.entries.Pairwise (· < ·) ∧
        (∀ p, p ∈ it.entries ↔ ∃ names n, listing.Lists names n ∧ p = dir.below names) ∧
        (∀ n, (it.take n).1 = it.entries.take n ∧
          (it.take n).2.remaining = it.totalFiles - n ∧ (it.take n).2.totalFiles = it.totalFiles) ∧
        (∀ other : Entries, other.Distinct → ¬ other.Fails →
          (∀ names, (∃ n, listing.Lists names n) ↔ ∃ n, other.Lists names n) →
          new dir (.dir other) = some it) ∧
        (listing.Linkless → getDirSize listing = some (listing.sizes dir it.entries).sum) := by
  constructor
  · rw [new, Option.map_eq_none_iff, collectFiles_eq_none]
  · intro it hit
    obtain ⟨files, hfiles, rfl⟩ := Option.map_eq_some_iff.mp hit
    have hnodup := nodup_collectFiles hfiles hd
    have hsorted : (sort files).Nodup := (sort_perm files).nodup_iff.mpr hnodup
    refine ⟨?_, fun p => ?_, fun n => ?_, ?_, fun hl => ?_⟩
    · have hboth := (sort_sorted files).and hsorted
      exact hboth.imp fun hpq => lt_of_le_of_ne hpq.1 hpq.2
    · rw [(sort_perm files).mem_iff, mem_collectFiles hfiles]
    · rw [take_eq n (Nat.zero_le _)]
      refine ⟨rfl, ?_, rfl⟩
      simp only [remaining, totalFiles, Nat.zero_add]
      omega
    · intro other hdOther hok hsame
      cases hother : collectFiles dir other with
      | none => exact absurd (collectFiles_eq_none.mp hother) hok
      | some others =>
        rw [new, hother, Option.map_some]
        refine congrArg (fun entries => some (FileIterator.mk entries 0)) ?_
        refine sort_eq_of_mem (nodup_collectFiles hother hdOther) hnodup fun p => ?_
        rw [mem_collectFiles hother, mem_collectFiles hfiles]
        constructor
        · rintro ⟨names, n, hlists, rfl⟩
          obtain ⟨m, hm⟩ := (hsame names).mpr ⟨n, hlists⟩
          exact ⟨names, m, hm, rfl⟩
        · rintro ⟨names, n, hlists, rfl⟩
          obtain ⟨m, hm⟩ := (hsame names).mp ⟨n, hlists⟩
          exact ⟨names, m, hm, rfl⟩
    · rw [getDirSize_eq hfiles hd hl]
      exact congrArg some (((sort_perm files).map _).sum_eq).symm

/-- A folder `b` with a file, listed before a file `a`. -/
def sample : Entries :=
  .folder ⟨['b'], by decide⟩ (.file ⟨['c'], by decide⟩ 2 .done) (.file ⟨['a'], by decide⟩ 1 .done)

theorem new_dir_sample : ∃ it, new ⟨true, []⟩ (.dir sample) = some it ∧
    it.entries.Pairwise (· < ·) ∧ (it.take 1).2.remaining = 1 ∧
    getDirSize sample = some (sample.sizes ⟨true, []⟩ it.entries).sum := by
  have hb : (⟨['b'], by decide⟩ : Name) ∉ [(⟨['a'], by decide⟩ : Name)] := by decide
  have hd : sample.Distinct :=
    ⟨hb, ⟨List.not_mem_nil, trivial⟩, List.not_mem_nil, trivial⟩
  obtain ⟨-, hall⟩ := new_dir ⟨true, []⟩ sample hd
  obtain ⟨files, hfiles⟩ : ∃ files, collectFiles ⟨true, []⟩ sample = some files := ⟨_, rfl⟩
  obtain ⟨hsorted, -, htake, -, hsize⟩ := hall ⟨sort files, 0⟩ (by rw [new, hfiles]; rfl)
  refine ⟨⟨sort files, 0⟩, by rw [new, hfiles]; rfl, hsorted, ?_, hsize ⟨trivial, trivial⟩⟩
  rw [(htake 1).2.1, totalFiles, (sort_perm files).length_eq]
  obtain rfl := Option.some.inj hfiles
  rfl

end FileIterator

end P2PTransfer
