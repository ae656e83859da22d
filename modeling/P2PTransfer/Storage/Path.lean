import Mathlib

/-!
# Paths

Paths as the standard library of the source reads them on Unix: a string is cut
at the separators, `join` lets an absolute argument replace the base, and a path
is compared by its components. Lexical normalisation sends a path to the place
it names when no link is followed.

## Main definitions

- `Name` — a component that is an ordinary file name
- `Path`, `Path.ofString`, `Path.join` — `Path::components` and `PathBuf::join`
- `Location`, `Path.normalize` — lexical normalisation
- `Location.StrictlyBelow` — to be a strict descendant
- `Location.Returns` — a relative location that leads back into a directory
-/

namespace P2PTransfer

/-- An ordinary file name. -/
def Name : Type := { s : List Char // s ≠ [] ∧ s ≠ ['.'] ∧ s ≠ ['.', '.'] ∧ '/' ∉ s }

instance : DecidableEq Name := inferInstanceAs (DecidableEq (Subtype _))

inductive Part where
  | curDir
  | parentDir
  | normal (name : Name)
deriving DecidableEq

def Part.ofPiece (piece : List Char) : Option Part :=
  if h : piece ≠ [] ∧ piece ≠ ['.'] ∧ piece ≠ ['.', '.'] ∧ '/' ∉ piece then
    some (.normal ⟨piece, h⟩)
  else if piece = ['.', '.'] then some .parentDir
  else if piece = ['.'] then some .curDir
  else none

theorem Part.ofPiece_nil : Part.ofPiece [] = none := rfl

theorem Part.ofPiece_name (n : Name) : Part.ofPiece n.val = some (.normal n) :=
  dif_pos n.property

theorem Part.ofPiece_isSome {piece : List Char} (h : piece ≠ []) (hs : '/' ∉ piece) :
    ∃ part, Part.ofPiece piece = some part := by
  unfold Part.ofPiece
  split
  · exact ⟨_, rfl⟩
  · next hn =>
    by_cases hup : piece = ['.', '.']
    · exact ⟨.parentDir, by simp [hup]⟩
    · have hdot : piece = ['.'] := by
        by_contra hd
        exact hn ⟨h, hd, hup, hs⟩
      exact ⟨.curDir, by simp [hdot]⟩

/-- A path is its components; the root, if it is there, comes first. -/
structure Path where
  root : Bool
  parts : List Part
deriving DecidableEq

namespace Path

/-- The parts without the current directory. -/
def moves (parts : List Part) : List Part := parts.filter (· ≠ .curDir)

@[simp] theorem moves_append (ps qs : List Part) : moves (ps ++ qs) = moves ps ++ moves qs := by
  simp [moves]

@[simp] theorem moves_moves (ps : List Part) : moves (moves ps) = moves ps := by
  simp [moves]

def pieces (s : List Char) : List Part := (s.splitOn '/').filterMap Part.ofPiece

/-- `Path::components`: the current directory only counts where a relative path
begins with it. -/
def ofString (s : List Char) : Path :=
  if s.head? = some '/' then ⟨true, moves (pieces s)⟩
  else ⟨false, (pieces s).take 1 ++ moves ((pieces s).drop 1)⟩

/-- `PathBuf::push` on the strings. -/
def push (base arg : List Char) : List Char :=
  if arg.head? = some '/' then arg
  else if base = [] ∨ base.getLast? = some '/' then base ++ arg
  else base ++ '/' :: arg

/-- `Path::join`. -/
def join (p q : Path) : Path :=
  if q.root then q
  else if p = ⟨false, []⟩ then q
  else ⟨p.root, p.parts ++ moves q.parts⟩

/-- `Path::parent`. -/
def parent (p : Path) : Option Path :=
  if p.parts = [] then none else some ⟨p.root, p.parts.dropLast⟩

/-- `Path::file_name`. -/
def fileName (p : Path) : Option Name :=
  match p.parts.getLast? with
  | some (.normal n) => some n
  | _ => none

/-- `rsplit_file_at_dot`: what stands before and after the last dot of a name.
A leading dot does not count. -/
def splitAtDot (name : List Char) : List Char × Option (List Char) :=
  let after := name.reverse.takeWhile (· ≠ '.')
  let before := (name.reverse.dropWhile (· ≠ '.')).drop 1
  if before = [] then (name, none) else (before.reverse, some after.reverse)

/-- `Path::file_stem`. -/
def fileStem (p : Path) : Option (List Char) := p.fileName.map fun n => (splitAtDot n.val).1

/-- `Path::extension`. -/
def extension (p : Path) : Option (List Char) := p.fileName.bind fun n => (splitAtDot n.val).2

end Path

/-- Where a normalised path starts from. -/
inductive Anchor where
  | root
  | up (levels : Nat)
deriving DecidableEq

/-- A normalised path: no component is left that another one undoes. -/
structure Location where
  anchor : Anchor
  names : List Name
deriving DecidableEq

namespace Location

/-- One more component. Nothing is above the root. -/
def push (l : Location) : Part → Location
  | .curDir => l
  | .normal n => { l with names := l.names ++ [n] }
  | .parentDir =>
    if l.names ≠ [] then { l with names := l.names.dropLast }
    else match l.anchor with
      | .root => l
      | .up k => { l with anchor := .up (k + 1) }

/-- Some levels up. -/
def climb (l : Location) (k : Nat) : Location where
  names := l.names.take (l.names.length - k)
  anchor := match l.anchor with
    | .root => .root
    | .up m => .up (m + (k - l.names.length))

/-- The place that `m` names seen from `l`. -/
def graft (l m : Location) : Location :=
  match m.anchor with
  | .root => m
  | .up k => { l.climb k with names := (l.climb k).names ++ m.names }

def StrictlyBelow (l dir : Location) : Prop :=
  l.anchor = dir.anchor ∧ dir.names <+: l.names ∧ dir.names ≠ l.names

def Within (l dir : Location) : Prop :=
  l.anchor = dir.anchor ∧ dir.names <+: l.names

instance (l dir : Location) : Decidable (l.StrictlyBelow dir) :=
  inferInstanceAs (Decidable (_ ∧ _))

instance (l dir : Location) : Decidable (l.Within dir) :=
  inferInstanceAs (Decidable (_ ∧ _))

/-- What `m` names from `dir` is in `dir`: if it climbs out of `dir`, it does not
climb past what is known of `dir`, and comes back the same way. -/
def Returns (dir m : Location) : Prop :=
  match m.anchor with
  | .root => dir.anchor = .root ∧ dir.names <+: m.names
  | .up k => (k ≤ dir.names.length ∨ dir.anchor = .root) ∧
      dir.names.drop (dir.names.length - k) <+: m.names

/-- It also names something there. -/
def ReturnsBelow (dir m : Location) : Prop :=
  dir.Returns m ∧ match m.anchor with
    | .root => dir.names ≠ m.names
    | .up k => dir.names.drop (dir.names.length - k) ≠ m.names

instance (dir m : Location) : Decidable (dir.Returns m) := by
  unfold Returns
  cases m.anchor <;> infer_instance

instance (dir m : Location) : Decidable (dir.ReturnsBelow m) := by
  unfold ReturnsBelow
  cases m.anchor <;> infer_instance

theorem push_normal (l : Location) (n : Name) :
    l.push (.normal n) = { l with names := l.names ++ [n] } := rfl

/-- A step after a graft is a step of what is grafted, which may make it climb. -/
theorem push_graft (l m : Location) (k : Nat) (hm : m.anchor = .up k) (part : Part) :
    (l.graft m).push part = l.graft (m.push part) := by
  obtain ⟨anchor, names⟩ := m
  obtain rfl : anchor = .up k := hm
  cases part with
  | curDir => rfl
  | normal n => simp [graft, push]
  | parentDir =>
    rcases List.eq_nil_or_concat names with rfl | ⟨names, n, rfl⟩
    · rcases Nat.lt_or_ge k l.names.length with hk | hk
      · -- one name of `l` is left to drop
        have hne : l.names.take (l.names.length - k) ≠ [] := by
          rw [Ne, List.take_eq_nil_iff, not_or]
          exact ⟨by omega, fun h => by simp [h] at hk⟩
        have hlen : (l.names.take (l.names.length - k)).length - 1 = l.names.length - (k + 1) := by
          rw [List.length_take]
          omega
        have hdrop : (l.names.take (l.names.length - k)).dropLast
            = l.names.take (l.names.length - (k + 1)) := by
          rw [List.dropLast_eq_take, hlen, List.take_take]
          congr 1
          omega
        cases ha : l.anchor with
        | root => simp [graft, push, climb, hne, hdrop, ha]
        | up m =>
          have h0 : k - l.names.length = 0 := by omega
          have h1 : k + 1 - l.names.length = 0 := by omega
          simp [graft, push, climb, hne, hdrop, ha, h0, h1]
      · have h0 : l.names.length - k = 0 := by omega
        have h1 : l.names.length - (k + 1) = 0 := by omega
        have h2 : k + 1 - l.names.length = k - l.names.length + 1 := by omega
        cases ha : l.anchor with
        | root => simp [graft, push, climb, h0, h1, ha]
        | up m => simp [graft, push, climb, h0, h1, h2, ha, Nat.add_assoc]
    · simp [graft, push, ← List.append_assoc]

theorem graft_nil (l : Location) : l.graft ⟨.up 0, []⟩ = l := by
  obtain ⟨anchor, names⟩ := l
  cases anchor <;> simp [graft, climb]

theorem anchor_graft (l m : Location) (k : Nat) (hm : m.anchor = .up k) :
    (l.graft m).anchor = l.anchor ↔ k ≤ l.names.length ∨ l.anchor = .root := by
  obtain ⟨anchor, names⟩ := l
  cases anchor with
  | root => simp [graft, climb, hm]
  | up j =>
    simp only [graft, climb, hm, Anchor.up.injEq, reduceCtorEq, or_false]
    omega

theorem names_graft (l m : Location) (k : Nat) (hm : m.anchor = .up k) :
    (l.graft m).names = l.names.take (l.names.length - k) ++ m.names := by
  simp [graft, climb, hm]

theorem within_graft (l m : Location) : (l.graft m).Within l ↔ l.Returns m := by
  cases hm : m.anchor with
  | root => simp [Within, Returns, graft, hm, eq_comm]
  | up k =>
    have hsplit : ∀ a b, l.names = a ++ b → (l.names <+: a ++ m.names ↔ b <+: m.names) :=
      fun a b h => by rw [h, List.prefix_append_right_inj]
    rw [Within, anchor_graft l m k hm, names_graft l m k hm,
      hsplit _ _ (List.take_append_drop _ _).symm]
    simp [Returns, hm]

theorem strictlyBelow_graft (l m : Location) :
    (l.graft m).StrictlyBelow l ↔ l.ReturnsBelow m := by
  have hw := within_graft l m
  cases hm : m.anchor with
  | root =>
    have hg : l.graft m = m := by simp [graft, hm]
    rw [hg] at hw ⊢
    rw [StrictlyBelow, ReturnsBelow, ← hw, Within, hm, and_assoc]
  | up k =>
    have hne : ∀ a b, l.names = a ++ b → (l.names ≠ a ++ m.names ↔ b ≠ m.names) :=
      fun a b h => by rw [h, Ne, List.append_cancel_left_eq]
    rw [StrictlyBelow, ReturnsBelow, ← hw, Within, names_graft l m k hm, hm, and_assoc,
      hne _ _ (List.take_append_drop _ _).symm]

/-- A name put behind a location is strictly below what the location is in. -/
theorem strictlyBelow_push_normal (l dir : Location) (n : Name) :
    (l.push (.normal n)).StrictlyBelow dir ↔ l.Within dir := by
  rw [push_normal, StrictlyBelow, Within, List.prefix_concat_iff]
  refine and_congr_right fun _ => ⟨?_, fun h => ⟨.inr h, ?_⟩⟩
  · rintro ⟨h | h, hne⟩
    · exact absurd h hne
    · exact h
  · intro he
    have := he ▸ h.length_le
    rw [List.length_append, List.length_singleton] at this
    omega

end Location

namespace Path

/-- Lexical normalisation. -/
def normalize (p : Path) : Location :=
  p.parts.foldl Location.push ⟨if p.root then .root else .up 0, []⟩

theorem normalize_concat (root : Bool) (parts : List Part) (part : Part) :
    normalize ⟨root, parts ++ [part]⟩ = (normalize ⟨root, parts⟩).push part := by
  simp [normalize]

/-- The current directory moves nothing. -/
theorem foldl_push_moves (parts : List Part) (l : Location) :
    (moves parts).foldl Location.push l = parts.foldl Location.push l := by
  induction parts generalizing l with
  | nil => rfl
  | cons part parts ih =>
    cases part with
    | curDir => exact ih l
    | parentDir => exact ih _
    | normal n => exact ih _

theorem normalize_relative_anchor (parts : List Part) :
    ∃ k, (normalize ⟨false, parts⟩).anchor = .up k := by
  induction parts using List.reverseRecOn with
  | nil => exact ⟨0, rfl⟩
  | append_singleton parts part ih =>
    obtain ⟨k, hk⟩ := ih
    rw [normalize_concat]
    cases part with
    | curDir => exact ⟨k, hk⟩
    | normal n => exact ⟨k, hk⟩
    | parentDir =>
      by_cases hn : (normalize ⟨false, parts⟩).names = []
      · exact ⟨k + 1, by simp [Location.push, hn, hk]⟩
      · exact ⟨k, by simp [Location.push, hn, hk]⟩

theorem foldl_push_relative (l : Location) (parts : List Part) :
    parts.foldl Location.push l = l.graft (normalize ⟨false, parts⟩) := by
  induction parts using List.reverseRecOn with
  | nil => exact (Location.graft_nil l).symm
  | append_singleton parts part ih =>
    obtain ⟨k, hk⟩ := normalize_relative_anchor parts
    rw [List.foldl_append, ih, normalize_concat]
    exact Location.push_graft l _ k hk part

theorem normalize_rooted_anchor (parts : List Part) :
    (normalize ⟨true, parts⟩).anchor = .root := by
  induction parts using List.reverseRecOn with
  | nil => rfl
  | append_singleton parts part ih =>
    rw [normalize_concat]
    cases part with
    | curDir => exact ih
    | normal n => exact ih
    | parentDir =>
      by_cases hn : (normalize ⟨true, parts⟩).names = []
      · simp [Location.push, hn, ih]
      · simp [Location.push, hn, ih]

/-- A joined path names what the argument names from the base. -/
theorem normalize_join (p q : Path) : (p.join q).normalize = p.normalize.graft q.normalize := by
  obtain ⟨root, parts⟩ := q
  cases root with
  | true =>
    show normalize ⟨true, parts⟩ = _
    simp [Location.graft, normalize_rooted_anchor]
  | false =>
    by_cases hp : p = ⟨false, []⟩
    · subst hp
      obtain ⟨k, hk⟩ := normalize_relative_anchor parts
      show normalize ⟨false, parts⟩ = _
      exact foldl_push_relative ⟨.up 0, []⟩ parts
    · have hj : p.join ⟨false, parts⟩ = ⟨p.root, p.parts ++ moves parts⟩ := by simp [join, hp]
      rw [hj, normalize, List.foldl_append, foldl_push_moves, foldl_push_relative]
      rfl

theorem pieces_append_cons (s t : List Char) : pieces (s ++ '/' :: t) = pieces s ++ pieces t := by
  rw [pieces, List.splitOn_append_cons_self, List.filterMap_append]
  rfl

theorem not_mem_of_mem_splitOn {s piece : List Char} (h : piece ∈ s.splitOn '/') :
    '/' ∉ piece := by
  induction s generalizing piece with
  | nil =>
    rw [List.splitOn_nil, List.mem_singleton] at h
    simp [h]
  | cons c s ih =>
    rw [List.splitOn_cons_eq_if_modifyHead] at h
    by_cases hc : c = '/'
    · rw [if_pos (by simp [hc]), List.mem_cons] at h
      rcases h with rfl | h
      · simp
      · exact ih h
    · rw [if_neg (by simp [hc])] at h
      obtain ⟨first, rest, hs⟩ := List.exists_cons_of_ne_nil (List.splitOn_ne_nil '/' s)
      rw [hs, List.modifyHead_cons, List.mem_cons] at h
      rcases h with rfl | h
      · have : '/' ∉ first := ih (by simp [hs])
        simp [this, Ne.symm hc]
      · exact ih (by simp [hs, h])

/-- A relative path that is not empty has a first component. -/
theorem pieces_ne_nil {s : List Char} (hs : s ≠ []) (hr : s.head? ≠ some '/') :
    pieces s ≠ [] := by
  obtain ⟨c, s, rfl⟩ := List.exists_cons_of_ne_nil hs
  have hc : c ≠ '/' := fun h => hr (by simp [h])
  obtain ⟨first, rest, hsplit⟩ := List.exists_cons_of_ne_nil (List.splitOn_ne_nil '/' s)
  have hcons : (c :: s).splitOn '/' = (c :: first) :: rest := by
    rw [List.splitOn_cons_eq_if_modifyHead, if_neg (by simp [hc]), hsplit, List.modifyHead_cons]
  have hno : '/' ∉ c :: first := not_mem_of_mem_splitOn (s := c :: s) (by simp [hcons])
  obtain ⟨part, hpart⟩ := Part.ofPiece_isSome (List.cons_ne_nil c first) hno
  simp [pieces, hcons, hpart]

/-- What `push` puts together is split again at the same place. -/
theorem pieces_push {base arg : List Char} (hb : base ≠ []) (ha : arg.head? ≠ some '/') :
    pieces (push base arg) = pieces base ++ pieces arg ∧ (push base arg).head? = base.head? := by
  rcases List.eq_nil_or_concat base with rfl | ⟨base, c, rfl⟩
  · exact absurd rfl hb
  · rw [List.concat_eq_append]
    by_cases hc : c = '/'
    · subst hc
      have hp : push (base ++ ['/']) arg = base ++ '/' :: arg := by simp [push, ha]
      rw [hp, pieces_append_cons, pieces_append_cons]
      exact ⟨by simp [pieces, Part.ofPiece_nil], by cases base <;> rfl⟩
    · have hp : push (base ++ [c]) arg = (base ++ [c]) ++ '/' :: arg := by simp [push, ha, hc]
      rw [hp, pieces_append_cons]
      exact ⟨rfl, by cases base <;> rfl⟩

/-- `push` on the strings is `join` on the components. -/
theorem ofString_push (base arg : List Char) :
    ofString (push base arg) = (ofString base).join (ofString arg) := by
  by_cases ha : arg.head? = some '/'
  · simp [push, ofString, join, ha]
  · by_cases hb : base = []
    · subst hb
      have he : ofString [] = ⟨false, []⟩ := rfl
      simp [push, ha, he, join]
    · obtain ⟨hp, hh⟩ := pieces_push hb ha
      have harg : moves (ofString arg).parts = moves (pieces arg) := by
        conv_rhs => rw [← List.take_append_drop 1 (pieces arg), moves_append]
        simp [ofString, ha]
      have hroot : (ofString arg).root = false := by simp [ofString, ha]
      by_cases hr : base.head? = some '/'
      · have hbase : ofString base = ⟨true, moves (pieces base)⟩ := by simp [ofString, hr]
        rw [hbase, join, hroot, harg]
        simp [ofString, hp, hh, hr]
      · have hne := pieces_ne_nil hb hr
        obtain ⟨part, parts, hparts⟩ := List.exists_cons_of_ne_nil hne
        have hbase : ofString base = ⟨false, part :: moves parts⟩ := by
          simp [ofString, hr, hparts]
        rw [hbase, join, hroot, harg]
        simp [ofString, hp, hh, hr, hparts]

theorem ofString_name (n : Name) : ofString n.val = ⟨false, [.normal n]⟩ := by
  have hno : '/' ∉ n.val := n.property.2.2.2
  have hh : n.val.head? ≠ some '/' := fun h => hno (List.mem_of_mem_head? h)
  have hp : pieces n.val = [.normal n] := by
    simp [pieces, List.splitOn_eq_singleton hno, Part.ofPiece_name]
  simp [ofString, hh, hp, moves]

end Path

end P2PTransfer
