import P2PTransfer.Lib.PrefixCode
import P2PTransfer.Network.Discovery
import P2PTransfer.Storage.Bytes

/-!
# The texts of messages

`serde_json::to_vec` writes an object without spaces, its strings escaped, in UTF-8. No such text is
the beginning of another one, so a message that was cut is none.

## Main definitions

- `toVec` — the bytes of an object
- `FromSlice` — a parser that reads them

## Main results

- `prefixCode_toVec` — the texts are a prefix code
-/

namespace P2PTransfer.Json

open Transition Discovery

/-- The values of the fields of messages. -/
inductive Scalar where
  | bool (b : Bool)
  | integer (n : Nat)
  | string (t : Text)
deriving DecidableEq

/-- The value that a parser finds. -/
def Scalar.value : Scalar → JsonValue
  | .bool b => .bool b
  | .integer n => .integer n
  | .string t => .string t

/-- The fields of a message, in the order of the text. -/
abbrev Fields := List (Text × Scalar)

/-- The fields of an object that was read. -/
abbrev Object := List (Text × JsonValue)

/-! ### Texts -/

def utf8 (t : Text) : Bytes := t.flatMap String.utf8EncodeChar

def shortEscapes : List (Char × Char) :=
  [('"', '"'), ('\\', '\\'), ('\x08', 'b'), ('\x0c', 'f'), ('\n', 'n'), ('\r', 'r'), ('\t', 't')]

/-- A character of a string. -/
def escape (c : Char) : Text :=
  match shortEscapes.lookup c with
  | some short => ['\\', short]
  | none =>
    if c.toNat < 32 then
      ['\\', 'u', '0', '0', Nat.digitChar (c.toNat / 16), Nat.digitChar (c.toNat % 16)]
    else [c]

def quote (t : Text) : Text := '"' :: (t.flatMap escape ++ ['"'])

def Scalar.text : Scalar → Text
  | .bool true => "true".toList
  | .bool false => "false".toList
  | .integer n => Nat.toDigits 10 n
  | .string t => quote t

def entry (e : Text × Scalar) : Text := quote e.1 ++ ':' :: e.2.text

/-- The fields from one on, up to the bracket. -/
def inside (e : Text × Scalar) : Fields → Text
  | [] => entry e ++ ['}']
  | e' :: more => entry e ++ ',' :: inside e' more

def objectText : Fields → Text
  | [] => ['{', '}']
  | e :: more => '{' :: inside e more

/-- `serde_json::to_vec` -/
def toVec (o : Fields) : Bytes := utf8 (objectText o)

/-! ### Prefix codes -/

theorem prefixCode_utf8EncodeChar : PrefixCode String.utf8EncodeChar := by
  intro c d hcd
  obtain ⟨more, hmore⟩ := hcd
  have hc := ByteArray.utf8DecodeChar?_utf8EncodeChar_append (b := more.toByteArray) (c := c)
  have hd := ByteArray.utf8DecodeChar?_utf8EncodeChar_append (b := .empty) (c := d)
  rw [← List.toByteArray_append, hmore] at hc
  rw [ByteArray.append_empty, hc] at hd
  exact Option.some.inj hd

/-- A character is replaced by a short escape, by its number, or not at all. -/
theorem escape_cases (c : Char) :
    (∃ short, (c, short) ∈ shortEscapes ∧ escape c = ['\\', short]) ∨
    (c.toNat < 32 ∧ escape c =
      ['\\', 'u', '0', '0', Nat.digitChar (c.toNat / 16), Nat.digitChar (c.toNat % 16)]) ∨
    (escape c = [c] ∧ c ≠ '"' ∧ c ≠ '\\') := by
  cases hlookup : shortEscapes.lookup c with
  | some short =>
    left
    obtain ⟨before, after, hsplit, -⟩ := List.lookup_eq_some_iff.mp hlookup
    refine ⟨short, ?_, by rw [escape, hlookup]⟩
    rw [hsplit]
    exact List.mem_append_right before List.mem_cons_self
  | none =>
    right
    by_cases hc : c.toNat < 32
    · left
      exact ⟨hc, by rw [escape, hlookup]; exact if_pos hc⟩
    · right
      refine ⟨by rw [escape, hlookup]; exact if_neg hc, ?_, ?_⟩
      · rintro rfl
        exact absurd hlookup (by decide)
      · rintro rfl
        exact absurd hlookup (by decide)

theorem prefixCode_escape : PrefixCode escape := by
  have hshort : ∀ p ∈ shortEscapes, p.2 ≠ 'u' ∧ ∀ q ∈ shortEscapes, p.2 = q.2 → p.1 = q.1 := by
    decide
  have hnumber : ∀ n < 32, ∀ m < 32, Nat.digitChar (n / 16) = Nat.digitChar (m / 16) →
      Nat.digitChar (n % 16) = Nat.digitChar (m % 16) → n = m := by
    decide
  intro c d h
  rcases escape_cases c with ⟨s, hs, hc⟩ | ⟨hsmall, hc⟩ | ⟨hc, -, hback⟩ <;>
    rcases escape_cases d with ⟨t, ht, hd⟩ | ⟨hsmall', hd⟩ | ⟨hd, -, hback'⟩ <;>
    rw [hc, hd] at h <;>
    simp only [List.cons_prefix_cons, List.prefix_nil, List.nil_prefix, and_true, true_and,
      List.cons_ne_nil, and_false] at h
  · exact (hshort _ hs).2 _ ht h
  · exact absurd h (hshort _ hs).1
  · exact Char.toNat_inj.mp (hnumber _ hsmall _ hsmall' h.1 h.2)
  · exact absurd h hback
  · exact absurd h hback
  · exact h

theorem escape_append_ne (c : Char) (x y : Text) : escape c ++ x ≠ ['"'] ++ y := by
  intro h
  rcases escape_cases c with ⟨s, hs, hc⟩ | ⟨hsmall, hc⟩ | ⟨hc, hquote, -⟩ <;> rw [hc] at h
  · exact absurd (List.cons.inj h).1 (by decide)
  · exact absurd (List.cons.inj h).1 (by decide)
  · exact hquote (List.cons.inj h).1

theorem prefixCode_quote : PrefixCode quote := by
  intro t t' h
  exact prefixCode_escape.upTo escape_append_ne t t' (List.cons_prefix_cons.mp h).2

/-- What ends a value. -/
def Ends (c : Char) : Prop := c = ',' ∨ c = '}'

/-- A value that is no string has letters and digits only. -/
theorem Scalar.text_of_plain {v : Scalar} (h : ∀ t, v ≠ .string t) :
    v.text ≠ [] ∧ ∀ c ∈ v.text, c ≠ '"' ∧ ¬ Ends c := by
  cases v with
  | bool b => cases b <;> simp [text, Ends]
  | integer n =>
    refine ⟨Nat.toDigits_ne_nil, fun c hc => ?_⟩
    have hdigit : c.isDigit := Nat.isDigit_of_mem_toDigits (by omega) (by omega) hc
    constructor
    · rintro rfl
      exact absurd hdigit (by decide)
    · rintro (rfl | rfl) <;> exact absurd hdigit (by decide)
  | string t => exact absurd rfl (h t)

theorem Scalar.text_injective : Function.Injective Scalar.text := by
  have hdigits : ∀ n b, Scalar.text (.integer n) ≠ Scalar.text (.bool b) := by
    intro n b h
    have hletter : ∃ c ∈ Scalar.text (.bool b), ¬ c.isDigit := by cases b <;> simp [text]
    obtain ⟨c, hc, hletter⟩ := hletter
    rw [← h] at hc
    exact hletter (Nat.isDigit_of_mem_toDigits (by omega) (by omega) hc)
  have hquote : ∀ (t : Text) (v : Scalar), (∀ t, v ≠ .string t) →
      Scalar.text (.string t) ≠ v.text := by
    intro t v hv h
    exact ((text_of_plain hv).2 '"' (h ▸ List.mem_cons_self)).1 rfl
  intro v w h
  cases v with
  | bool b =>
    cases w with
    | bool b' =>
      revert h
      cases b <;> cases b' <;> decide
    | integer n => exact absurd h.symm (hdigits n b)
    | string t => exact absurd h.symm (hquote t _ (by simp))
  | integer n =>
    cases w with
    | bool b => exact absurd h (hdigits n b)
    | integer m =>
      have hvalue := congrArg (fun t => Nat.ofDigitChars 10 t 0) h
      simp only [text, Nat.ofDigitChars_ten_toDigits] at hvalue
      rw [hvalue]
    | string t => exact absurd h.symm (hquote t _ (by simp))
  | string t =>
    cases w with
    | bool b => exact absurd h (hquote t _ (by simp))
    | integer n => exact absurd h (hquote t _ (by simp))
    | string t' => rw [prefixCode_quote.injective h]

/-- A value goes up to the first comma or bracket behind it. -/
theorem Scalar.text_append_inj {v w : Scalar} {s t : Char} {x y : Text} (hs : Ends s) (ht : Ends t)
    (h : v.text ++ s :: x = w.text ++ t :: y) : v = w ∧ s = t ∧ x = y := by
  have hquote : ∀ (t : Text) (v : Scalar) (x y : Text), (∀ t, v ≠ .string t) →
      Scalar.text (.string t) ++ x ≠ v.text ++ y := by
    intro t v x y hv he
    cases hv' : v.text with
    | nil => exact (text_of_plain hv).1 hv'
    | cons c more =>
      rw [hv'] at he
      have hc := (text_of_plain hv).2 c (hv' ▸ List.mem_cons_self)
      exact hc.1 (List.cons.inj he).1.symm
  by_cases hv : ∀ t, v ≠ .string t
  · by_cases hw : ∀ t, w ≠ .string t
    · obtain ⟨htext, hrest⟩ := append_cons_inj_of_marks (fun c hc => ((text_of_plain hv).2 c hc).2)
        (fun c hc => ((text_of_plain hw).2 c hc).2) hs ht h
      exact ⟨text_injective htext, hrest⟩
    · push Not at hw
      obtain ⟨t', rfl⟩ := hw
      exact absurd h.symm (hquote t' v _ _ hv)
  · push Not at hv
    obtain ⟨t', rfl⟩ := hv
    by_cases hw : ∀ t, w ≠ .string t
    · exact absurd h (hquote t' w _ _ hw)
    · push Not at hw
      obtain ⟨t'', rfl⟩ := hw
      obtain ⟨rfl, hrest⟩ := prefixCode_quote.append_inj h
      exact ⟨rfl, List.cons.inj hrest⟩

theorem entry_append_inj {e f : Text × Scalar} {s t : Char} {x y : Text} (hs : Ends s) (ht : Ends t)
    (h : entry e ++ s :: x = entry f ++ t :: y) : e = f ∧ s = t ∧ x = y := by
  rw [entry, entry, List.append_assoc, List.append_assoc] at h
  obtain ⟨hkey, hrest⟩ := prefixCode_quote.append_inj h
  obtain ⟨hvalue, hend⟩ := Scalar.text_append_inj hs ht (List.cons.inj hrest).2
  exact ⟨Prod.ext hkey hvalue, hend⟩

theorem inside_append_inj {e f : Text × Scalar} {o p : Fields} {x y : Text}
    (h : inside e o ++ x = inside f p ++ y) : e = f ∧ o = p := by
  induction o generalizing e f p with
  | nil =>
    cases p with
    | nil =>
      rw [inside, inside, List.append_assoc, List.append_assoc] at h
      exact ⟨(entry_append_inj (.inr rfl) (.inr rfl) h).1, rfl⟩
    | cons f' p =>
      rw [inside, inside, List.append_assoc, List.append_assoc] at h
      exact absurd (entry_append_inj (.inr rfl) (.inl rfl) h).2.1 (by decide)
  | cons e' o ih =>
    cases p with
    | nil =>
      rw [inside, inside, List.append_assoc, List.append_assoc] at h
      exact absurd (entry_append_inj (.inl rfl) (.inr rfl) h).2.1 (by decide)
    | cons f' p =>
      rw [inside, inside, List.append_assoc, List.append_assoc] at h
      obtain ⟨he, -, hrest⟩ := entry_append_inj (.inl rfl) (.inl rfl) h
      obtain ⟨rfl, rfl⟩ := ih hrest
      exact ⟨he, rfl⟩

theorem inside_eq_cons (e : Text × Scalar) (o : Fields) : ∃ more, inside e o = '"' :: more := by
  cases o with
  | nil => exact ⟨_, rfl⟩
  | cons e' o => exact ⟨_, rfl⟩

theorem prefixCode_objectText : PrefixCode objectText := by
  apply PrefixCode.of_append
  intro o p x y h
  cases o with
  | nil =>
    cases p with
    | nil => rfl
    | cons f p =>
      obtain ⟨more, hmore⟩ := inside_eq_cons f p
      rw [objectText, objectText, hmore] at h
      exact absurd (List.cons.inj (List.cons.inj h).2).1 (by decide)
  | cons e o =>
    cases p with
    | nil =>
      obtain ⟨more, hmore⟩ := inside_eq_cons e o
      rw [objectText, objectText, hmore] at h
      exact absurd (List.cons.inj (List.cons.inj h).2).1 (by decide)
    | cons f p =>
      obtain ⟨rfl, rfl⟩ := inside_append_inj (List.cons.inj h).2
      rfl

theorem prefixCode_toVec : PrefixCode toVec :=
  prefixCode_objectText.flatMap prefixCode_utf8EncodeChar fun _ => String.utf8EncodeChar_ne_nil

theorem length_utf8_le (t : Text) : (utf8 t).length ≤ 4 * t.length := by
  induction t with
  | nil => exact le_rfl
  | cons c t ih =>
    have hc : (String.utf8EncodeChar c).length ≤ 4 :=
      String.length_utf8EncodeChar c ▸ c.utf8Size_le_four
    rw [utf8] at ih ⊢
    rw [List.flatMap_cons, List.length_append, List.length_cons]
    omega

/-! ### Parsers -/

def found (o : Fields) : Object := o.map fun e => (e.1, e.2.value)

/-- `serde_json::from_slice`: it reads what `to_vec` has written, but not a part of it. -/
structure FromSlice where
  parse : Bytes → Option Object
  parse_toVec : ∀ o, parse (toVec o) = some (found o)
  parse_cut : ∀ o part, part <+: toVec o → part ≠ toVec o → parse part = none

open Classical in
/-- The parser that reads nothing else. -/
noncomputable def FromSlice.least : FromSlice where
  parse text := if h : ∃ o, toVec o = text then some (found h.choose) else none
  parse_toVec o := by
    have h : ∃ p, toVec p = toVec o := ⟨o, rfl⟩
    rw [dif_pos h, prefixCode_toVec.injective h.choose_spec]
  parse_cut o part hcut hne := by
    apply dif_neg
    rintro ⟨p, hp⟩
    exact prefixCode_toVec.not_word_of_cut hcut hne hp

end P2PTransfer.Json
