/-
  Stepwise.Proofs.Reading
  ────────────────────────────────────────────────────────────────────────────
  **THE PLAIN TEXT OF A NESTED LIST OF NUMBERS CAN BE READ BACK.**

  Reading goes from the front: a `Reader` takes one value off a text and leaves
  what stands behind it to whoever called it.  From a reader of elements comes
  one of lists, and so one for every depth.
-/
import Stepwise.Proofs.Brackets
import Stepwise.Proofs.KeySeparation
import Stepwise.Proofs.Numerals

namespace Stepwise

open Text
open Text.Numeral

universe u

/-! ## §1. Readers. -/

/-- Takes the plain text of a value off the front of a text. -/
structure Reader (α : Type u) [PlainText α] where
  /-- The value at the front, and what stands behind it. -/
  read : List Char → Option (α × List Char)
  /-- Nothing else than the plain text of the value is taken off. -/
  eq_append_of_read : ∀ {text rest : List Char} {a : α},
    read text = some (a, rest) → text = (plainText .plain a).toList ++ rest
  /-- The plain text of each value is taken off, in front of any text that is closed. -/
  read_append : ∀ (a : α) {rest : List Char},
    Closed rest → read ((plainText .plain a).toList ++ rest) = some (a, rest)
  /-- The first character of a value is no bracket that closes. -/
  opens : ∀ a : α, ∃ c text, (plainText .plain a).toList = c :: text ∧ c ≠ ']'

namespace Reader

variable {α : Type u} [PlainText α]

theorem length_le_of_read (r : Reader α) {text rest : List Char} {a : α}
    (h : r.read text = some (a, rest)) : rest.length ≤ text.length := by
  rw [r.eq_append_of_read h, List.length_append]
  exact Nat.le_add_left _ _

/-- The value whose plain text the whole text is. -/
def parse (r : Reader α) (text : String) : Option α :=
  match r.read text.toList with
  | some (a, []) => some a
  | _ => none

/-- Reading accepts exactly what writing produces. -/
theorem parse_eq_some_iff (r : Reader α) (text : String) (a : α) :
    r.parse text = some a ↔ text = plainText .plain a := by
  constructor
  · intro h
    unfold parse at h
    split at h
    · rename_i b hread
      obtain rfl : b = a := Option.some.inj h
      have htext := r.eq_append_of_read hread
      rw [List.append_nil] at htext
      exact String.toList_inj.mp htext
    · exact absurd h (by simp)
  · intro h
    have hread : r.read text.toList = some (a, []) := by
      rw [h, ← r.read_append a closed_nil, List.append_nil]
    rw [parse, hread]

theorem plainText_eq_iff (r : Reader α) (a b : α) :
    plainText .plain a = plainText .plain b ↔ a = b := by
  rw [← r.parse_eq_some_iff, (r.parse_eq_some_iff (plainText .plain a) a).mpr rfl,
    Option.some.injEq]

end Reader

/-! ## §2. Numbers. -/

namespace Reader

/-- Numbers as they are written without options: the longest beginning that is made of the
characters of numbers has to be the spelling of one. -/
def number : Reader Int64 where
  read text :=
    (ofSpelling (text.takeWhile isNumeral)).map fun n => (n, text.dropWhile isNumeral)
  eq_append_of_read := by
    intro text rest n h
    obtain ⟨m, hm, heq⟩ := Option.map_eq_some_iff.mp h
    obtain ⟨rfl, rfl⟩ := Prod.mk.inj heq
    rw [(ofSpelling_eq_some_iff _ m).mp hm, List.takeWhile_append_dropWhile]
  read_append := by
    intro n rest hrest
    obtain ⟨htake, hdrop⟩ := Numeral.span_append (isNumeral_of_mem_plainText n) hrest
    rw [htake, hdrop, (ofSpelling_eq_some_iff _ n).mpr rfl]
    rfl
  opens := by
    intro n
    obtain ⟨c, text, htext, hc⟩ := exists_plainText_eq_cons n
    refine ⟨c, text, htext, ?_⟩
    rintro rfl
    exact absurd hc (by decide)

end Reader

/-! ## §3. Lists. -/

namespace ConsList

variable {α : Type u} [PlainText α]

/-- What stands behind an element when `l` is still to come. -/
def closing : ConsList α → List Char
  | nil => [']']
  | cons a l => ',' :: ' ' :: ((plainText .plain a).toList ++ closing l)

theorem closed_closing_append (l : ConsList α) (rest : List Char) : Closed (l.closing ++ rest) := by
  intro c hc
  cases l with
  | nil =>
      obtain rfl : ']' = c := Option.some.inj hc
      rfl
  | cons a l =>
      obtain rfl : ',' = c := Option.some.inj hc
      rfl

theorem closing_eq (l : ConsList α) :
    l.closing
      = (String.join ((l.toList.map (plainText .plain)).map (", " ++ ·))).toList ++ [']'] := by
  induction l with
  | nil => rfl
  | cons a l ih =>
      rw [closing, ih, toList_cons, List.map_cons, List.map_cons, String.join_cons,
        String.toList_append, String.toList_append, List.append_assoc, List.append_assoc]
      rfl

theorem toList_plainText_nil : (plainText .plain (nil : ConsList α)).toList = ['[', ']'] := by
  show ("[" ++ "]").toList = _
  rw [String.toList_append]
  simp

theorem toList_plainText_cons (a : α) (l : ConsList α) :
    (plainText .plain (cons a l)).toList
      = '[' :: ((plainText .plain a).toList ++ l.closing) := by
  rw [plainText_eq_inline, toList_cons, List.map_cons, Layout.inline_cons, closing_eq,
    String.toList_append, String.toList_append, String.toList_append]
  simp

end ConsList

namespace Reader

open ConsList (nil cons closing)

variable {α : Type u} [PlainText α]

/-- The elements that follow one behind the other, up to the bracket that closes. -/
def readMore (r : Reader α) : List Char → Option (ConsList α × List Char)
  | ']' :: rest => some (nil, rest)
  | ',' :: ' ' :: text =>
    match h : r.read text with
    | none => none
    | some (a, text') =>
      have := r.length_le_of_read h
      (r.readMore text').map fun p => (cons a p.1, p.2)
  | _ => none
termination_by text => text.length

/-- An element and those that follow it. -/
def readElements (r : Reader α) (text : List Char) : Option (ConsList α × List Char) :=
  (r.read text).bind fun p => (r.readMore p.2).map fun q => (cons p.1 q.1, q.2)

/-- A list from the bracket that opens it: no element, or one and those that follow it. -/
def readList (r : Reader α) : List Char → Option (ConsList α × List Char)
  | '[' :: ']' :: rest => some (nil, rest)
  | '[' :: text => r.readElements text
  | _ => none

theorem readMore_comma (r : Reader α) (text : List Char) :
    r.readMore (',' :: ' ' :: text) = r.readElements text := by
  rw [readMore, readElements]
  split <;> simp_all

theorem readElements_append (r : Reader α) (a : α) {l : ConsList α} {rest : List Char}
    (h : r.readMore (l.closing ++ rest) = some (l, rest)) :
    r.readElements ((plainText .plain a).toList ++ (l.closing ++ rest))
      = some (cons a l, rest) := by
  rw [readElements, r.read_append a (l.closed_closing_append rest)]
  show (r.readMore (l.closing ++ rest)).map _ = _
  rw [h]
  rfl

theorem readMore_closing (r : Reader α) (l : ConsList α) (rest : List Char) :
    r.readMore (l.closing ++ rest) = some (l, rest) := by
  induction l with
  | nil =>
      show r.readMore (']' :: rest) = _
      rw [readMore]
  | cons a l ih =>
      show r.readMore (',' :: ' ' :: ((plainText .plain a).toList ++ l.closing ++ rest)) = _
      rw [readMore_comma, List.append_assoc, r.readElements_append a ih]

/-- An element does not look like the end of the list. -/
theorem readList_append (r : Reader α) (a : α) (text : List Char) :
    r.readList ('[' :: ((plainText .plain a).toList ++ text))
      = r.readElements ((plainText .plain a).toList ++ text) := by
  obtain ⟨c, spelling, hspelling, hc⟩ := r.opens a
  rw [hspelling, List.cons_append, readList]
  simpa using hc

theorem eq_append_of_readMore (r : Reader α) (text : List Char) :
    ∀ {l : ConsList α} {rest : List Char},
      r.readMore text = some (l, rest) → text = l.closing ++ rest := by
  fun_induction readMore r text with
  | case1 rest' =>
      intro l rest h
      obtain ⟨rfl, rfl⟩ := Prod.mk.inj (Option.some.inj h)
      rfl
  | case2 text hread =>
      intro l rest h
      exact absurd h (by simp)
  | case3 text a text' hread hlength ih =>
      intro l rest h
      obtain ⟨⟨l', rest'⟩, hmore, heq⟩ := Option.map_eq_some_iff.mp h
      obtain ⟨rfl, rfl⟩ := Prod.mk.inj heq
      rw [r.eq_append_of_read hread, ih hmore, ← List.append_assoc]
      rfl
  | case4 text hbracket hcomma =>
      intro l rest h
      exact absurd h (by simp)

/-- Lists of what the reader reads. -/
def list (r : Reader α) : Reader (ConsList α) where
  read := r.readList
  eq_append_of_read := by
    intro text rest l h
    unfold readList at h
    split at h
    · obtain ⟨rfl, rfl⟩ := Prod.mk.inj (Option.some.inj h)
      rw [ConsList.toList_plainText_nil]
      rfl
    · obtain ⟨⟨a, text'⟩, hread, hmap⟩ := Option.bind_eq_some_iff.mp h
      obtain ⟨⟨l', rest'⟩, hmore, heq⟩ := Option.map_eq_some_iff.mp hmap
      obtain ⟨rfl, rfl⟩ := Prod.mk.inj heq
      rw [ConsList.toList_plainText_cons, r.eq_append_of_read hread,
        r.eq_append_of_readMore text' hmore, List.cons_append, List.append_assoc]
    · exact absurd h (by simp)
  read_append := by
    intro l rest _
    cases l with
    | nil =>
        rw [ConsList.toList_plainText_nil]
        rfl
    | cons a l =>
        rw [ConsList.toList_plainText_cons, List.cons_append, List.append_assoc, readList_append,
          r.readElements_append a (r.readMore_closing l rest)]
  opens := by
    intro l
    cases l with
    | nil => exact ⟨'[', [']'], ConsList.toList_plainText_nil, by decide⟩
    | cons a l => exact ⟨'[', _, ConsList.toList_plainText_cons a l, by decide⟩

end Reader

/-! ## §4. Lists of lists. -/

namespace ConsList

/-- The reader of lists that are `n` deep, from that of their leaves. -/
def Nested.reader {α : Type u} [PlainText α] (leaf : Reader α) : (n : Nat) → Reader (Nested α n)
  | 0 => leaf
  | n + 1 => (reader leaf n).list

/-- **PLAIN TEXTS TELL NESTED LISTS OF NUMBERS APART**, at every depth and in whatever styles they
are written: two lists have the same text exactly when they are equal.  The text can be read back:
the reader for lists of a depth gives a list for just the one text that is written for it, and none
for all other texts. -/
theorem plain_texts_tell_nested_lists_apart :
    (∀ (n : Nat) (style style' : Style) (l r : Nested Int64 (n + 1)),
      plainText style l = plainText style' r ↔ (l == r) = true)
    ∧ (∀ (n : Nat) (text : String) (l : Nested Int64 n),
        (Nested.reader .number n).parse text = some l ↔ text = plainText .plain l) := by
  constructor
  · intro n style style' l r
    rw [beq_iff_eq]
    -- the styles of the lists do not reach their texts
    exact (Nested.reader .number (n + 1)).plainText_eq_iff l r
  · intro n text l
    exact (Nested.reader .number n).parse_eq_some_iff text l

/-- A text is refused for a number that is written otherwise, for a comma without its blank, and
for what stands behind the last bracket. -/
example : (Nested.reader .number 1).parse "[01]" = none
    ∧ (Nested.reader .number 1).parse "[1,2]" = none
    ∧ (Nested.reader .number 2).parse "[[1], []]]" = none := by decide +kernel

end ConsList

end Stepwise
