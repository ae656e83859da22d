import Mathlib.Data.List.Basic
import Mathlib.Logic.Function.Basic

/-!
# Prefix codes

Where no word is the beginning of another one, a reader knows where a word ends without a look at
what follows, and a word that was cut is none.

## Main definitions

- `PrefixCode` — a code of this kind

## Main results

- `PrefixCode.flatMap` — the letters of a prefix code written in another one
- `PrefixCode.upTo` — words up to a mark that does not begin a word
-/

namespace Transition

/-- No word is the beginning of another one. -/
def PrefixCode {α β : Type*} (encode : α → List β) : Prop :=
  ∀ a b, encode a <+: encode b → a = b

namespace PrefixCode

variable {α β γ : Type*} {encode : α → List β}

/-- The words may be read off one stream. -/
theorem of_append (h : ∀ a b x y, encode a ++ x = encode b ++ y → a = b) : PrefixCode encode := by
  intro a b hab
  obtain ⟨x, hx⟩ := hab
  exact h a b x [] (by rw [hx, List.append_nil])

theorem append_inj (h : PrefixCode encode) {a b : α} {x y : List β}
    (he : encode a ++ x = encode b ++ y) : a = b ∧ x = y := by
  have hab : a = b := by
    rcases List.prefix_or_prefix_of_prefix (List.prefix_append _ _) ⟨y, he.symm⟩ with hp | hp
    · exact h a b hp
    · exact (h b a hp).symm
  subst hab
  exact ⟨rfl, List.append_cancel_left he⟩

theorem injective (h : PrefixCode encode) : Function.Injective encode := by
  intro a b hab
  exact h a b ⟨[], by rw [List.append_nil, hab]⟩

/-- A word that was cut is no word. -/
theorem not_word_of_cut (h : PrefixCode encode) {a b : α} {part : List β} (hcut : part <+: encode a)
    (hne : part ≠ encode a) : encode b ≠ part := by
  rintro rfl
  apply hne
  rw [h b a hcut]

theorem prefix_of_flatMap {f : β → List γ} (hf : PrefixCode f) (hne : ∀ b, f b ≠ [])
    {xs ys : List β} (h : xs.flatMap f <+: ys.flatMap f) : xs <+: ys := by
  induction xs generalizing ys with
  | nil => exact List.nil_prefix
  | cons x xs ih =>
    obtain ⟨more, hmore⟩ := h
    rw [List.flatMap_cons, List.append_assoc] at hmore
    cases ys with
    | nil => exact absurd (List.append_eq_nil_iff.mp hmore).1 (hne x)
    | cons y ys =>
      rw [List.flatMap_cons] at hmore
      obtain ⟨rfl, hrest⟩ := hf.append_inj hmore
      exact List.cons_prefix_cons.mpr ⟨rfl, ih ⟨more, hrest⟩⟩

/-- **Codes compose.** A prefix code stays one where its letters are written in another one. -/
theorem flatMap {f : β → List γ} (h : PrefixCode encode) (hf : PrefixCode f)
    (hne : ∀ b, f b ≠ []) : PrefixCode fun a => (encode a).flatMap f := by
  intro a b hab
  exact h a b (prefix_of_flatMap hf hne hab)

/-- **Words up to a mark.** Any number of words with a mark behind them, which no word begins
with. -/
theorem upTo (h : PrefixCode encode) {mark : List β}
    (hmark : ∀ a x y, encode a ++ x ≠ mark ++ y) :
    PrefixCode fun words : List α => words.flatMap encode ++ mark := by
  apply of_append
  intro words
  induction words with
  | nil =>
    intro others x y he
    cases others with
    | nil => rfl
    | cons b others =>
      rw [List.flatMap_nil, List.nil_append, List.flatMap_cons, List.append_assoc,
        List.append_assoc] at he
      exact absurd he.symm (hmark b _ _)
  | cons a words ih =>
    intro others x y he
    rw [List.flatMap_cons, List.append_assoc, List.append_assoc] at he
    cases others with
    | nil => exact absurd he (hmark a _ _)
    | cons b others =>
      rw [List.flatMap_cons, List.append_assoc, List.append_assoc] at he
      obtain ⟨rfl, hrest⟩ := h.append_inj he
      rw [← List.append_assoc, ← List.append_assoc] at hrest
      rw [ih others x y hrest]

end PrefixCode

/-- Two streams agree up to the first mark of each. -/
theorem append_cons_inj_of_marks {β : Type*} {mark : β → Prop} {a b x y : List β} {s t : β}
    (ha : ∀ c ∈ a, ¬ mark c) (hb : ∀ c ∈ b, ¬ mark c) (hs : mark s) (ht : mark t)
    (h : a ++ s :: x = b ++ t :: y) : a = b ∧ s = t ∧ x = y := by
  induction a generalizing b with
  | nil =>
    cases b with
    | nil =>
      obtain ⟨hst, hxy⟩ := List.cons.inj h
      exact ⟨rfl, hst, hxy⟩
    | cons c b => exact absurd ((List.cons.inj h).1 ▸ hs) (hb c List.mem_cons_self)
  | cons c a ih =>
    cases b with
    | nil => exact absurd ((List.cons.inj h).1 ▸ ht) (ha c List.mem_cons_self)
    | cons d b =>
      obtain ⟨rfl, hrest⟩ := List.cons.inj h
      obtain ⟨rfl, hmarks⟩ := ih (fun e he => ha e (List.mem_cons_of_mem c he))
        (fun e he => hb e (List.mem_cons_of_mem c he)) hrest
      exact ⟨rfl, hmarks⟩

end Transition
