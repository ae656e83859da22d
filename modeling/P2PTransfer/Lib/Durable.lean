import Mathlib

/-!
# Values that are saved behind their edits

A program edits a value in memory and saves copies of it, each of which is written out a while
later. A crash leaves the copy that was written last. Which edits the value is made of after any
number of crashes does not depend on the value.

## Main definitions

- `Durable` — a value with the copies under way and the written one
- `Durable.run` — all of them after edits, saves, writes and crashes
- `Durable.edits` — the edits that they are made of
-/

namespace Storage

variable {σ τ ο : Type*}

structure Durable (σ : Type*) where
  memory : σ
  writing : List σ
  saved : σ

namespace Durable

inductive Act (ο : Type*) where
  | edit (op : ο)
  | save
  | write
  | crash

def map (f : σ → τ) (d : Durable σ) : Durable τ := ⟨f d.memory, d.writing.map f, f d.saved⟩

/-- The oldest copy under way is written out. -/
def written (d : Durable σ) : Durable σ :=
  match d.writing with
  | [] => d
  | w :: ws => { d with writing := ws, saved := w }

theorem map_written (f : σ → τ) (d : Durable σ) : d.written.map f = (d.map f).written := by
  obtain ⟨memory, writing, saved⟩ := d
  cases writing with
  | nil => rfl
  | cons w ws => rfl

section

variable (apply : σ → ο → σ)

def step (d : Durable σ) : Act ο → Durable σ
  | .edit op => { d with memory := apply d.memory op }
  | .save => { d with writing := d.writing ++ [d.memory] }
  | .write => d.written
  | .crash => ⟨d.saved, [], d.saved⟩

def run (s : σ) (as : List (Act ο)) : Durable σ := as.foldl (step apply) ⟨s, [], s⟩

theorem run_append (s : σ) (as bs : List (Act ο)) :
    run apply s (as ++ bs) = bs.foldl (step apply) (run apply s as) :=
  List.foldl_append

end

/-- A view that the edits respect is respected by saves and crashes. -/
theorem run_map {apply : σ → ο → σ} {apply' : τ → ο → τ} {f : σ → τ}
    (hf : ∀ s op, f (apply s op) = apply' (f s) op) (s : σ) (as : List (Act ο)) :
    (run apply s as).map f = run apply' (f s) as := by
  have hstep : ∀ (d : Durable σ) (a : Act ο), (step apply d a).map f = step apply' (d.map f) a := by
    intro d a
    cases a with
    | edit op =>
      exact congrArg (fun m => (⟨m, d.writing.map f, f d.saved⟩ : Durable τ)) (hf d.memory op)
    | save =>
      have hcopies : (d.writing ++ [d.memory]).map f = d.writing.map f ++ [f d.memory] :=
        List.map_append
      exact congrArg (fun w => (⟨f d.memory, w, f d.saved⟩ : Durable τ)) hcopies
    | write => exact map_written f d
    | crash => rfl
  have hfold : ∀ d : Durable σ,
      (as.foldl (step apply) d).map f = as.foldl (step apply') (d.map f) := by
    induction as with
    | nil => exact fun d => rfl
    | cons a as ih =>
      intro d
      rw [List.foldl_cons, List.foldl_cons, ih, hstep]
  exact hfold ⟨s, [], s⟩

/-- The edits that have come into the value, and those of its copies. -/
def edits (as : List (Act ο)) : Durable (List ο) := run (fun l op => l ++ [op]) [] as

/-- The value is made of its edits. -/
theorem run_eq (apply : σ → ο → σ) (s : σ) (as : List (Act ο)) :
    run apply s as = (edits as).map fun l => l.foldl apply s := by
  refine (run_map (f := fun l => l.foldl apply s) (fun l op => ?_) [] as).symm
  rw [List.foldl_append]
  rfl

theorem edits_append (as bs : List (Act ο)) :
    edits (as ++ bs) = bs.foldl (step fun l op => l ++ [op]) (edits as) :=
  run_append _ _ _ _

/-- Older copies are made of the first edits of the younger ones. -/
def Ordered (d : Durable (List ο)) : Prop :=
  (d.saved :: d.writing ++ [d.memory]).Pairwise (· <+: ·)

/-- All copies are made of the first edits of the value. -/
theorem Ordered.prefix_memory {d : Durable (List ο)} (h : d.Ordered) :
    ∀ l ∈ d.saved :: d.writing, l <+: d.memory :=
  fun l hl => (List.pairwise_append.mp h).2.2 l hl _ (List.mem_singleton_self _)

theorem Ordered.memory_append {d : Durable (List ο)} (h : d.Ordered) (op : ο) :
    Ordered { d with memory := d.memory ++ [op] } := by
  refine List.pairwise_append.mpr ⟨(List.pairwise_append.mp h).1, List.pairwise_singleton _ _, ?_⟩
  intro l hl l' hl'
  rw [List.mem_singleton.mp hl']
  exact (h.prefix_memory l hl).trans (List.prefix_append _ _)

theorem Ordered.save {d : Durable (List ο)} (h : d.Ordered) :
    Ordered { d with writing := d.writing ++ [d.memory] } := by
  refine List.pairwise_append.mpr ⟨h, List.pairwise_singleton _ _, ?_⟩
  intro l hl l' hl'
  rw [List.mem_singleton.mp hl']
  cases List.mem_append.mp (show l ∈ d.saved :: d.writing ++ [d.memory] from hl) with
  | inl hl => exact h.prefix_memory l hl
  | inr hl => exact List.mem_singleton.mp hl ▸ List.prefix_refl _

theorem Ordered.written {d : Durable (List ο)} (h : d.Ordered) :
    d.written.Ordered ∧ d.saved <+: d.written.saved := by
  obtain ⟨memory, writing, saved⟩ := d
  cases writing with
  | nil => exact ⟨h, List.prefix_refl _⟩
  | cons w ws =>
    obtain ⟨hsaved, hrest⟩ := List.pairwise_cons.mp h
    exact ⟨hrest, hsaved w List.mem_cons_self⟩

/-- A step keeps the order, and what is saved. -/
theorem Ordered.step {d : Durable (List ο)} (h : d.Ordered) (a : Act ο) :
    (step (fun l op => l ++ [op]) d a).Ordered ∧
      d.saved <+: (step (fun l op => l ++ [op]) d a).saved := by
  cases a with
  | edit op => exact ⟨h.memory_append op, List.prefix_refl _⟩
  | save => exact ⟨h.save, List.prefix_refl _⟩
  | write => exact h.written
  | crash =>
    exact ⟨List.pairwise_pair.mpr (List.prefix_refl _), List.prefix_refl _⟩

theorem edits_ordered (as : List (Act ο)) : (edits as).Ordered := by
  induction as using List.reverseRecOn with
  | nil => exact List.pairwise_pair.mpr (List.prefix_refl _)
  | append_singleton as a ih =>
    rw [edits_append]
    exact (ih.step a).1

/-- The saved edits are the first ones of the value. -/
theorem saved_prefix (as : List (Act ο)) : (edits as).saved <+: (edits as).memory :=
  (edits_ordered as).prefix_memory _ List.mem_cons_self

/-- What is saved stays, whatever comes. -/
theorem saved_mono (as bs : List (Act ο)) : (edits as).saved <+: (edits (as ++ bs)).saved := by
  induction bs using List.reverseRecOn with
  | nil => rw [List.append_nil]
  | append_singleton bs b ih =>
    rw [← List.append_assoc, edits_append (as ++ bs)]
    exact ih.trans ((edits_ordered (as ++ bs)).step b).2

end Durable

end Storage
