import P2PTransfer.Lib.Shared
import P2PTransfer.Storage.Volume
import P2PTransfer.Transfer.Metadata

/-!
# Folders that are sent

`send_to_contact` packs a folder into an archive in the directory for temporary files, waits until
the peer can be reached, reads the archive for every attempt to send it, and removes it in the end.
The archive is named after the last component of the folder, so two folders may have one archive.
Every attempt is taken to read the archive from its beginning: the resume offset of an answer is
left out.

## Main definitions

- `archivePath` — where the archive of a folder is put
- `Sending.State`, `sendings` — the calls, over one volume
- `Unmixed` — every call sends its own folder, and its archive stays as long as it is needed

## Main results

- `unmixed_iff` — the calls do not mix as long as the folders have different last components
-/

namespace P2PTransfer.Gui

open Transition

variable {ι : Type} [DecidableEq ι]

/-- `dir.file_name().unwrap_or_default()`. -/
def folderName (dir : Text) : Text := ((Path.ofString dir).fileName.map Subtype.val).getD []

/-- `std::env::temp_dir().join("p2ptransfer").join(format!("{folder_name}.tar"))`. -/
def archivePath (tempDir dir : Text) : Path :=
  ((Path.ofString tempDir).join (Path.ofString "p2ptransfer".toList)).join
    (Path.ofString (folderName dir ++ ".tar".toList))

namespace Sending

inductive Pc where
  | create
  | write
  | queued
  | sending
  | cleanup
  | returned
deriving DecidableEq, Repr

/-- `remaining` is what the archive still lacks, `sent` what the last attempt has read. -/
structure State where
  pc : Pc := .create
  handle : Nat := 0
  remaining : List Bytes
  written : Nat := 0
  sent : Bytes := []
  complete : Bool := false

inductive Act where
  | create
  | createError
  | write
  | writeError (n : Nat)
  | archived
  | open
  | read (n : Nat)
  | attemptFailed
  | transmitted
  | refused
  | cancel
  | remove
deriving DecidableEq

/-- One step of the call whose archive is at `path`. -/
def step (path : Path) (v : Volume) (c : State) : Act → Option (Volume × State)
  -- `archive_directory_to_temp`
  | .create => guarded (c.pc = .create)
      (v.create path, { c with pc := .write, handle := v.place path, written := 0 })
  | .createError => guarded (c.pc = .create) (v, { c with pc := .returned })
  | .write => match c.remaining with
    | data :: rest => guarded (c.pc = .write)
        (v.write c.handle c.written data,
          { c with remaining := rest, written := c.written + data.length })
    | [] => none
  | .writeError n => guarded (c.pc = .write)
      (v.write c.handle c.written ((c.remaining.headD []).take n), { c with pc := .returned })
  | .archived => guarded (c.pc = .write ∧ c.remaining = []) (v, { c with pc := .queued })
  -- an attempt opens the archive by its path
  | .open => match v.names path with
    | some i => guarded (c.pc = .queued) (v, { c with pc := .sending, handle := i, sent := [] })
    | none => none
  | .read n => guarded (c.pc = .sending)
      (v, { c with sent := c.sent ++ ((v.contents c.handle).drop c.sent.length).take n })
  | .attemptFailed => guarded (c.pc = .sending) (v, { c with pc := .queued })
  | .transmitted => guarded (c.pc = .sending ∧ (v.contents c.handle).length ≤ c.sent.length)
      (v, { c with pc := .cleanup, complete := true })
  | .refused => guarded (c.pc = .sending) (v, { c with pc := .cleanup })
  | .cancel => guarded (c.pc = .queued) (v, { c with pc := .cleanup })
  | .remove => guarded (c.pc = .cleanup) (v.remove path, { c with pc := .returned })

/-- The archive has been packed, and may still be read. -/
def State.needs (c : State) : Prop := c.pc = .queued ∨ c.pc = .sending

end Sending

/-- The calls, each with its own folder. -/
def sendings (tempDir : Text) (dirs : ι → Text) :
    Components ι Volume Sending.State Sending.Act where
  step i := Sending.step (archivePath tempDir (dirs i))

/-- The calls before their first step. `pack` gives the writes of the archive of a folder. -/
def startSendings (pack : Text → Text → List Bytes) (dirs : ι → Text) (v : Volume) :
    System ι Volume Sending.State where
  store := v
  parts i := { remaining := pack (folderName (dirs i)) (dirs i) }

/-- The archive of a folder. -/
def archive (pack : Text → Text → List Bytes) (dir : Text) : Bytes :=
  (pack (folderName dir) dir).flatten

/-- What a call sends is the archive of its folder, from the start and in the end all of it, and
as long as the call needs an archive there is one under its path. -/
def Unmixed (pack : Text → Text → List Bytes) (tempDir : Text) (dirs : ι → Text)
    (n : System ι Volume Sending.State) : Prop :=
  ∀ i, (n.parts i).sent <+: archive pack (dirs i) ∧
    ((n.parts i).complete → (n.parts i).sent = archive pack (dirs i)) ∧
    ((n.parts i).needs → n.store.names (archivePath tempDir (dirs i)) ≠ none)

theorem join_name_injective (p : Path) {n n' : Name}
    (h : p.join ⟨false, [.normal n]⟩ = p.join ⟨false, [.normal n']⟩) : n = n' := by
  unfold Path.join at h
  rw [if_neg Bool.false_ne_true, if_neg Bool.false_ne_true] at h
  by_cases hp : p = ⟨false, []⟩
  · rw [if_pos hp, if_pos hp] at h
    exact Part.normal.inj (List.singleton_inj.mp (congrArg Path.parts h))
  · rw [if_neg hp, if_neg hp] at h
    have hparts : Path.moves [.normal n] = Path.moves [.normal n'] :=
      List.append_cancel_left (congrArg Path.parts h)
    exact Part.normal.inj (List.singleton_inj.mp hparts)

/-- The text of an archive's name is a name. -/
theorem ofString_archive (dir : Text) : ∃ n : Name, n.val = folderName dir ++ ".tar".toList ∧
    Path.ofString (folderName dir ++ ".tar".toList) = ⟨false, [.normal n]⟩ := by
  have hslash : '/' ∉ folderName dir := by
    unfold folderName
    cases (Path.ofString dir).fileName with
    | none => exact List.not_mem_nil
    | some n => exact n.property.2.2.2
  have hlen : 4 ≤ (folderName dir ++ ".tar".toList).length := by
    rw [List.length_append]
    exact Nat.le_add_left 4 _
  have hname : folderName dir ++ ".tar".toList ≠ [] ∧ folderName dir ++ ".tar".toList ≠ ['.'] ∧
      folderName dir ++ ".tar".toList ≠ ['.', '.'] ∧ '/' ∉ folderName dir ++ ".tar".toList := by
    refine ⟨?_, ?_, ?_, ?_⟩
    · intro h
      rw [h] at hlen
      cases hlen
    · intro h
      rw [h] at hlen
      exact absurd hlen (by decide)
    · intro h
      rw [h] at hlen
      exact absurd hlen (by decide)
    · rw [List.mem_append]
      rintro (h | h)
      · exact hslash h
      · exact absurd h (by decide)
  exact ⟨⟨_, hname⟩, rfl, Path.ofString_name ⟨_, hname⟩⟩

theorem archivePath_eq_iff {tempDir dir dir' : Text} :
    archivePath tempDir dir = archivePath tempDir dir' ↔ folderName dir = folderName dir' := by
  constructor
  · intro h
    obtain ⟨n, hn, hof⟩ := ofString_archive dir
    obtain ⟨n', hn', hof'⟩ := ofString_archive dir'
    unfold archivePath at h
    rw [hof, hof'] at h
    rw [join_name_injective _ h] at hn
    exact List.append_cancel_right (hn.symm.trans hn')
  · intro h
    unfold archivePath
    rw [h]

namespace Sending

variable {path path' : Path} {whole whole' : Bytes} {v v' : Volume} {c c' t : State} {a : Act}

/-- A step takes the volume as it is, or makes, writes or removes the call's own archive. -/
theorem step_volume (hs : step path v c a = some (v', t)) :
    v' = v ∨ v' = v.create path ∨ v' = v.remove path ∨
      c.pc = .write ∧ ∃ pos data, v' = v.write c.handle pos data := by
  cases a with
  | write =>
    simp only [step] at hs
    split at hs
    · obtain ⟨hpc, heq⟩ := guarded_eq_some.mp hs
      cases heq
      exact .inr (.inr (.inr ⟨hpc, _, _, rfl⟩))
    · cases hs
  | «open» =>
    simp only [step] at hs
    split at hs
    · obtain ⟨-, heq⟩ := guarded_eq_some.mp hs
      cases heq
      exact .inl rfl
    · cases hs
  | create =>
    obtain ⟨-, heq⟩ := guarded_eq_some.mp hs
    cases heq
    exact .inr (.inl rfl)
  | remove =>
    obtain ⟨-, heq⟩ := guarded_eq_some.mp hs
    cases heq
    exact .inr (.inr (.inl rfl))
  | writeError n =>
    obtain ⟨hpc, heq⟩ := guarded_eq_some.mp hs
    cases heq
    exact .inr (.inr (.inr ⟨hpc, _, _, rfl⟩))
  | _ =>
    obtain ⟨-, heq⟩ := guarded_eq_some.mp hs
    cases heq
    exact .inl rfl

/-- The archive at the path is the call's own: what has been written of it, and all of it once it
has been packed. -/
structure Own (path : Path) (whole : Bytes) (v : Volume) (c : State) : Prop where
  fresh : c.pc = .create → c.remaining.flatten = whole
  writing : c.pc = .write → v.names path = some c.handle ∧
    c.written = (v.contents c.handle).length ∧ v.contents c.handle ++ c.remaining.flatten = whole
  packed : c.pc = .queued ∨ c.pc = .sending ∨ c.pc = .cleanup →
    ∃ i, v.names path = some i ∧ v.contents i = whole
  handle : c.pc = .sending → v.names path = some c.handle
  sent : c.sent <+: whole
  complete : c.complete → c.sent = whole ∧ (c.pc = .cleanup ∨ c.pc = .returned)

theorem Own.content (h : Own path whole v c) (hpc : c.pc = .sending) :
    v.contents c.handle = whole := by
  obtain ⟨i, hi, hcontent⟩ := h.packed (.inr (.inl hpc))
  obtain rfl := Option.some.inj ((h.handle hpc).symm.trans hi)
  exact hcontent

/-- Only the file under the path matters. -/
theorem Own.congr (h : Own path whole v c) (hnames : v'.names path = v.names path)
    (hcontents : ∀ i, v.names path = some i → v'.contents i = v.contents i) :
    Own path whole v' c where
  fresh := h.fresh
  writing hpc := by
    obtain ⟨hname, hlen, hflat⟩ := h.writing hpc
    rw [hnames, hcontents _ hname]
    exact ⟨hname, hlen, hflat⟩
  packed hpc := by
    obtain ⟨i, hi, hcontent⟩ := h.packed hpc
    exact ⟨i, hnames.trans hi, (hcontents i hi).trans hcontent⟩
  handle hpc := hnames.trans (h.handle hpc)
  sent := h.sent
  complete := h.complete

/-- A call with another path leaves the archive alone. -/
theorem Own.others (h : Own path whole v c) (h' : Own path' whole' v c') (hne : path ≠ path')
    (hs : step path' v c' a = some (v', t)) : Own path whole v' c := by
  rcases step_volume hs with rfl | rfl | rfl | ⟨hpc, pos, data, rfl⟩
  · exact h
  · exact h.congr (Volume.names_create_of_ne hne) fun i hi => Volume.contents_create_of_ne hi hne
  · exact h.congr (Volume.names_remove_of_ne hne) fun i _ => rfl
  · refine h.congr rfl fun i hi => Volume.contents_write_of_ne pos data fun heq => hne ?_
    -- the file that is written is that of the other path
    exact v.single path path' i hi (heq ▸ (h'.writing hpc).1)

/-- A call's own steps keep it. -/
theorem Own.step (h : Own path whole v c) (hs : Sending.step path v c a = some (v', t)) :
    Own path whole v' t := by
  have hcontent := h.content
  have hlate : c.pc ≠ .cleanup → c.pc ≠ .returned → c.complete = false := fun hc hr => by
    by_contra hcomplete
    rcases (h.complete (Bool.not_eq_false _ ▸ hcomplete)).2 with hp | hp
    · exact hc hp
    · exact hr hp
  obtain ⟨h1, h2, h3, h4, h5, h6⟩ := h
  cases a with
  | create =>
    obtain ⟨hpc, heq⟩ := guarded_eq_some.mp hs
    cases heq
    refine ⟨by simp, fun _ => ⟨Volume.names_create_self, ?_, ?_⟩, by simp, by simp, h5, ?_⟩
    · rw [Volume.contents_create_place]
      rfl
    · rw [Volume.contents_create_place, List.nil_append]
      exact h1 hpc
    · simp [hlate (by simp [hpc]) (by simp [hpc])]
  | createError =>
    obtain ⟨hpc, heq⟩ := guarded_eq_some.mp hs
    cases heq
    exact ⟨by simp, by simp, by simp, by simp, h5,
      by simp [hlate (by simp [hpc]) (by simp [hpc])]⟩
  | write =>
    simp only [Sending.step] at hs
    split at hs
    · next data rest hrest =>
      obtain ⟨hpc, heq⟩ := guarded_eq_some.mp hs
      cases heq
      obtain ⟨hname, hlen, hflat⟩ := h2 hpc
      refine ⟨by simp [hpc], fun _ => ⟨hname, ?_, ?_⟩, by simp [hpc], by simp [hpc], h5,
        by simp [hlate (by simp [hpc]) (by simp [hpc])]⟩
      · rw [Volume.contents_write_self, hlen, writeAt_length_self, List.length_append]
      · rw [Volume.contents_write_self, hlen, writeAt_length_self, List.append_assoc, ← hflat,
          hrest, List.flatten_cons]
    · cases hs
  | writeError n =>
    obtain ⟨hpc, heq⟩ := guarded_eq_some.mp hs
    cases heq
    exact ⟨by simp, by simp, by simp, by simp, h5,
      by simp [hlate (by simp [hpc]) (by simp [hpc])]⟩
  | archived =>
    obtain ⟨⟨hpc, hrest⟩, heq⟩ := guarded_eq_some.mp hs
    cases heq
    obtain ⟨hname, -, hflat⟩ := h2 hpc
    rw [hrest, List.flatten_nil, List.append_nil] at hflat
    exact ⟨by simp, by simp, fun _ => ⟨c.handle, hname, hflat⟩, by simp, h5,
      by simp [hlate (by simp [hpc]) (by simp [hpc])]⟩
  | «open» =>
    simp only [Sending.step] at hs
    split at hs
    · next i hi =>
      obtain ⟨hpc, heq⟩ := guarded_eq_some.mp hs
      cases heq
      exact ⟨by simp, by simp, fun _ => h3 (.inl hpc), fun _ => hi, List.nil_prefix,
        by simp [hlate (by simp [hpc]) (by simp [hpc])]⟩
    · cases hs
  | read n =>
    obtain ⟨hpc, heq⟩ := guarded_eq_some.mp hs
    cases heq
    refine ⟨h1, h2, h3, h4, ?_, by simp [hlate (by simp [hpc]) (by simp [hpc])]⟩
    -- what is read goes on where the last read ended
    obtain ⟨rest, hrest⟩ := h5
    have hdrop : (v.contents c.handle).drop c.sent.length = rest := by
      rw [hcontent hpc, ← hrest, List.drop_left]
    show c.sent ++ ((v.contents c.handle).drop c.sent.length).take n <+: whole
    rw [hdrop, ← hrest]
    exact List.prefix_append_right_inj _ |>.mpr (List.take_prefix n rest)
  | attemptFailed =>
    obtain ⟨hpc, heq⟩ := guarded_eq_some.mp hs
    cases heq
    exact ⟨by simp, by simp, fun _ => h3 (.inr (.inl hpc)), by simp, h5,
      by simp [hlate (by simp [hpc]) (by simp [hpc])]⟩
  | transmitted =>
    obtain ⟨⟨hpc, hlen⟩, heq⟩ := guarded_eq_some.mp hs
    cases heq
    rw [hcontent hpc] at hlen
    exact ⟨by simp, by simp, fun _ => h3 (.inr (.inl hpc)), by simp, h5,
      fun _ => ⟨h5.eq_of_length (Nat.le_antisymm h5.length_le hlen), .inl rfl⟩⟩
  | refused =>
    obtain ⟨hpc, heq⟩ := guarded_eq_some.mp hs
    cases heq
    exact ⟨by simp, by simp, fun _ => h3 (.inr (.inl hpc)), by simp, h5,
      by simp [hlate (by simp [hpc]) (by simp [hpc])]⟩
  | cancel =>
    obtain ⟨hpc, heq⟩ := guarded_eq_some.mp hs
    cases heq
    exact ⟨by simp, by simp, fun _ => h3 (.inl hpc), by simp, h5,
      by simp [hlate (by simp [hpc]) (by simp [hpc])]⟩
  | remove =>
    obtain ⟨hpc, heq⟩ := guarded_eq_some.mp hs
    cases heq
    exact ⟨by simp, by simp, by simp, by simp, h5, fun hc => ⟨(h6 hc).1, .inr rfl⟩⟩

end Sending

/-- Where the archives have different paths each call keeps its own. -/
theorem own_of_reach {pack : Text → Text → List Bytes} {tempDir : Text} {dirs : ι → Text}
    {v : Volume} (hdirs : Function.Injective fun i => folderName (dirs i))
    {n : System ι Volume Sending.State}
    (h : (sendings tempDir dirs).machine.Reach (fun _ _ => True) (startSendings pack dirs v) n) :
    ∀ i, Sending.Own (archivePath tempDir (dirs i)) (archive pack (dirs i)) n.store
      (n.parts i) := by
  refine h.invariant (I := fun n => ∀ i, Sending.Own (archivePath tempDir (dirs i))
    (archive pack (dirs i)) n.store (n.parts i)) (fun i => ?_) fun n a n' hI _ hs => ?_
  · exact ⟨fun _ => rfl, by simp [startSendings], by simp [startSendings],
      by simp [startSendings], List.nil_prefix, by simp [startSendings]⟩
  · refine Components.step_each (fun i v c => Sending.Own (archivePath tempDir (dirs i))
      (archive pack (dirs i)) v c) hs (fun v' c' hstep => (hI a.1).step hstep)
      fun v' c' j hj hstep => (hI j).others (hI a.1) (fun heq => hj ?_) hstep
    exact hdirs (archivePath_eq_iff.mp heq)

/-- A call may pack its archive and wait, and nothing happens to the others. -/
theorem reach_queued (tempDir : Text) (dirs : ι → Text) {n : System ι Volume Sending.State}
    (i : ι) (rest : List Bytes)
    (hpc : (n.parts i).pc = .write) (hrest : (n.parts i).remaining = rest) :
    ∃ n', (sendings tempDir dirs).machine.Reach (fun _ _ => True) n n' ∧
      (n'.parts i).pc = .queued ∧ n'.store.names = n.store.names ∧
      ∀ j ≠ i, n'.parts j = n.parts j := by
  induction rest generalizing n with
  | nil =>
    have hstep : (sendings tempDir dirs).machine.step n (i, .archived) = some _ :=
      Components.machine_step.mpr ⟨_, _, guarded_eq_some.mpr ⟨⟨hpc, hrest⟩, rfl⟩, rfl⟩
    refine ⟨_, Machine.Reach.refl.tail trivial hstep, ?_, rfl, fun j hj => ?_⟩
    · simp
    · simp [Function.update_of_ne hj]
  | cons data rest ih =>
    have hinner : Sending.step (archivePath tempDir (dirs i)) n.store (n.parts i) .write = some
        (n.store.write (n.parts i).handle (n.parts i).written data,
          { n.parts i with remaining := rest, written := (n.parts i).written + data.length }) := by
      simp only [Sending.step, hrest]
      exact guarded_eq_some.mpr ⟨hpc, rfl⟩
    have hstep : (sendings tempDir dirs).machine.step n (i, .write) = some _ :=
      Components.machine_step.mpr ⟨_, _, hinner, rfl⟩
    obtain ⟨n', hreach, hqueued, hnames, hothers⟩ := ih (n := ⟨n.store.write (n.parts i).handle
      (n.parts i).written data, Function.update n.parts i
        { n.parts i with remaining := rest, written := (n.parts i).written + data.length }⟩)
      (by simpa using hpc) (by simp)
    refine ⟨n', (Machine.Reach.refl.tail trivial hstep).trans hreach, hqueued, hnames,
      fun j hj => (hothers j hj).trans ?_⟩
    simp [Function.update_of_ne hj]

/-- So from its first step. -/
theorem reach_archived (tempDir : Text) (dirs : ι → Text) {n : System ι Volume Sending.State}
    (i : ι)
    (hpc : (n.parts i).pc = .create) :
    ∃ n', (sendings tempDir dirs).machine.Reach (fun _ _ => True) n n' ∧
      (n'.parts i).pc = .queued ∧ ∀ j ≠ i, n'.parts j = n.parts j := by
  have hstep : (sendings tempDir dirs).machine.step n (i, .create) = some _ :=
    Components.machine_step.mpr ⟨_, _, guarded_eq_some.mpr ⟨hpc, rfl⟩, rfl⟩
  obtain ⟨n', hreach, hqueued, -, hothers⟩ := reach_queued tempDir dirs i
    (n.parts i).remaining (n := ⟨n.store.create (archivePath tempDir (dirs i)),
      Function.update n.parts i { n.parts i with
        pc := .write, handle := n.store.place (archivePath tempDir (dirs i)), written := 0 }⟩)
    (by simp) (by simp)
  refine ⟨n', (Machine.Reach.refl.tail trivial hstep).trans hreach, hqueued,
    fun j hj => (hothers j hj).trans ?_⟩
  simp [Function.update_of_ne hj]

/-- A call that waits may be cancelled, and takes the archive away. -/
theorem reach_removed (tempDir : Text) (dirs : ι → Text) {n : System ι Volume Sending.State}
    (i : ι)
    (hpc : (n.parts i).pc = .queued) :
    ∃ n', (sendings tempDir dirs).machine.Reach (fun _ _ => True) n n' ∧
      n'.store.names (archivePath tempDir (dirs i)) = none ∧ ∀ j ≠ i, n'.parts j = n.parts j := by
  have hcancel : (sendings tempDir dirs).machine.step n (i, .cancel) = some _ :=
    Components.machine_step.mpr ⟨_, _, guarded_eq_some.mpr ⟨hpc, rfl⟩, rfl⟩
  have hremove : (sendings tempDir dirs).machine.step
      ⟨n.store, Function.update n.parts i { n.parts i with pc := .cleanup }⟩ (i, .remove) = some _ :=
    Components.machine_step.mpr ⟨_, _, guarded_eq_some.mpr ⟨by simp, rfl⟩, rfl⟩
  refine ⟨_, (Machine.Reach.refl.tail trivial hcancel).tail trivial hremove,
    Volume.names_remove_self, fun j hj => ?_⟩
  simp [Function.update_of_ne hj]

/-- **Sent folders.** In every run of the calls each one sends its own folder and keeps its
archive, exactly when no two of the folders have the same last component. -/
theorem unmixed_iff (pack : Text → Text → List Bytes) (tempDir : Text) (dirs : ι → Text)
    (v : Volume) :
    (∀ n, (sendings tempDir dirs).machine.Reach (fun _ _ => True) (startSendings pack dirs v) n →
      Unmixed pack tempDir dirs n) ↔ Function.Injective fun i => folderName (dirs i) := by
  constructor
  · intro h i j hname
    by_contra hne
    obtain ⟨n₁, hreach₁, hqueued₁, hothers₁⟩ :=
      reach_archived tempDir dirs (n := startSendings pack dirs v) i rfl
    obtain ⟨n₂, hreach₂, hqueued₂, hothers₂⟩ := reach_archived tempDir dirs (n := n₁) j (by rw [hothers₁ j (Ne.symm hne)]; rfl)
    obtain ⟨n₃, hreach₃, hnone, hothers₃⟩ :=
      reach_removed tempDir dirs (n := n₂) j hqueued₂
    have hneeds : (n₃.parts i).needs := by
      rw [hothers₃ i hne, hothers₂ i hne]
      exact .inl hqueued₁
    refine (h n₃ ((hreach₁.trans hreach₂).trans hreach₃) i).2.2 hneeds ?_
    rw [archivePath_eq_iff.mpr hname]
    exact hnone
  · intro hdirs n hreach i
    have hown := own_of_reach hdirs hreach i
    refine ⟨hown.sent, fun hc => (hown.complete hc).1, fun hneeds hnone => ?_⟩
    obtain ⟨k, hk, -⟩ := hown.packed (hneeds.imp_right .inl)
    rw [hnone] at hk
    cases hk

/-- A volume without files. -/
def emptyVolume : Volume where
  names _ := none
  contents _ := []
  next := 0
  below p i h := by cases h
  single p q i h := by cases h

/-- Two folders by the name of `f`. -/
def twoFolders : Bool → Text
  | true => ['/', 'a', '/', 'f']
  | false => ['/', 'b', '/', 'f']

/-- The second call is cancelled, and the first one is left without an archive. -/
theorem twoFolders_mixed :
    ¬ ∀ n, (sendings ['/', 't'] twoFolders).machine.Reach (fun _ _ => True)
      (startSendings (fun _ _ => [[1]]) twoFolders emptyVolume) n →
        Unmixed (fun _ _ => [[1]]) ['/', 't'] twoFolders n := by
  intro h
  obtain ⟨n, hn, hqueued, hnames⟩ :
      ∃ n, (sendings ['/', 't'] twoFolders).machine.run
        (startSendings (fun _ _ => [[1]]) twoFolders emptyVolume)
        [(true, .create), (true, .write), (true, .archived), (false, .create), (false, .write),
          (false, .archived), (false, .cancel), (false, .remove)] = some n ∧
        (n.parts true).pc = .queued ∧
        n.store.names (archivePath ['/', 't'] (twoFolders true)) = none :=
    ⟨_, rfl, rfl, rfl⟩
  exact (h n (Machine.reach_of_run (fun _ _ _ => trivial) hn) true).2.2 (.inl hqueued) hnames

end P2PTransfer.Gui
