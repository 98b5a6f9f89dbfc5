/-
  Stepwise.Proofs.Brackets
  ────────────────────────────────────────────────────────────────────────────
  **BOTH TEXTS OF A LIST ARE THE TEXTS OF ITS LEAVES IN BRACKETS.**

  A loop writes the plain text and drops the style at every level; the detailed
  text is set out from finished parts and hands the style down.
-/
import Stepwise.ConsList.Nested

namespace Stepwise

open Text

universe u

/-! ## §1. Parts in a row. -/

namespace Text.Layout

/-- All parts but the first have a comma in front of them. -/
theorem inline_cons (part : String) (parts : List String) :
    inline (part :: parts) = part ++ String.join (parts.map (", " ++ ·)) := by
  induction parts generalizing part with
  | nil => exact String.append_empty.symm
  | cons next parts ih =>
      show ", ".intercalate (part :: next :: parts) = _
      rw [String.intercalate_cons_cons, List.map_cons, String.join_cons, String.append_assoc,
        String.append_assoc, ← ih next]
      rfl

end Text.Layout

namespace ConsList

variable {α : Type u}

/-! ## §2. One list. -/

/-- Behind the first element each one is written with a comma. -/
theorem Writing.foldl_element (parts : List String) :
    ∀ text : String,
      parts.foldl Writing.element ⟨text, false⟩
        = ⟨text ++ String.join (parts.map (", " ++ ·)), false⟩ := by
  induction parts with
  | nil => intro text; exact congrArg (Writing.mk · false) String.append_empty.symm
  | cons part parts ih =>
      intro text
      show parts.foldl Writing.element ⟨text ++ ", " ++ part, false⟩ = _
      rw [ih, List.map_cons, String.join_cons, String.append_assoc, String.append_assoc,
        String.append_assoc]

theorem text_opened [PlainText α] (l : ConsList α) :
    l.opened.text = "[" ++ Layout.inline (l.toList.map (plainText .plain)) := by
  rw [opened, foldLeft_eq_foldl,
    ← List.foldl_map (f := plainText Style.plain) (g := Writing.element)]
  cases l.toList.map (plainText Style.plain) with
  | nil => exact String.append_empty.symm
  | cons part parts =>
      show (parts.foldl Writing.element ⟨"[" ++ part, false⟩).text = _
      rw [Writing.foldl_element, Layout.inline_cons, String.append_assoc]

/-- The style of the list reaches nothing in its plain text. -/
theorem plainText_eq_inline [PlainText α] (style : Style) (l : ConsList α) :
    plainText style l = "[" ++ Layout.inline (l.toList.map (plainText .plain)) ++ "]" := by
  show l.opened.text ++ "]" = _
  rw [text_opened]

/-- The style of the list is that of its elements; only the expanded one changes the brackets. -/
theorem detailText_eq_inline [DetailText α] {style : Style} (h : style.expanded = false)
    (l : ConsList α) :
    detailText style l = "[" ++ Layout.inline (l.toList.map (detailText style)) ++ "]" :=
  Layout.sequence_of_not_expanded h _

/-! ## §3. Lists of lists. -/

namespace Nested

/-- The leaves of a nested list in order. -/
def leaves : (n : Nat) → Nested α n → List α
  | 0, a => [a]
  | n + 1, l => (toList l).flatMap (leaves n)

/-- The leaves' texts determine the text in brackets. -/
theorem bracketed_congr {f g : α → String} (n : Nat) :
    ∀ l : Nested α n, (∀ a ∈ leaves n l, f a = g a) → bracketed f n l = bracketed g n l := by
  induction n with
  | zero =>
      intro a h
      exact h a (List.mem_singleton_self a)
  | succ n ih =>
      intro l h
      have hparts : (toList l).map (bracketed f n) = (toList l).map (bracketed g n) := by
        refine List.map_congr_left fun inner hinner => ih inner fun a ha => ?_
        exact h a (List.mem_flatMap.mpr ⟨inner, hinner, ha⟩)
      rw [bracketed, bracketed, hparts]

/-- Texts that have the brackets and the commas at each level have them at every depth. -/
theorem eq_bracketed {leaf : α → String} (text : (n : Nat) → Nested α n → String)
    (hleaf : ∀ a : α, text 0 a = leaf a)
    (hlist : ∀ (n : Nat) (l : Nested α (n + 1)),
      text (n + 1) l = "[" ++ Layout.inline ((toList l).map (text n)) ++ "]") (n : Nat) :
    ∀ l : Nested α n, text n l = bracketed leaf n l := by
  induction n with
  | zero => exact hleaf
  | succ n ih =>
      intro l
      have hparts : (toList l).map (text n) = (toList l).map (bracketed leaf n) :=
        List.map_congr_left fun inner _ => ih inner
      rw [hlist, hparts, bracketed]

theorem plainText_eq_bracketed [PlainText α] (n : Nat) (l : Nested α n) :
    plainText .plain l = bracketed (plainText .plain) n l :=
  eq_bracketed (fun _ l => plainText .plain l) (fun _ => rfl)
    (fun _ l => plainText_eq_inline .plain l) n l

theorem detailText_eq_bracketed [DetailText α] {style : Style} (h : style.expanded = false)
    (n : Nat) (l : Nested α n) : detailText style l = bracketed (detailText style) n l :=
  eq_bracketed (fun _ l => detailText style l) (fun _ => rfl)
    (fun _ l => detailText_eq_inline h l) n l

end Nested

/-- **BOTH TEXTS OF A NESTED LIST ARE ITS LEAVES IN BRACKETS**, with a comma between neighbours,
whatever the leaves are.  In the plain text they stand with their own plain texts without options,
whatever the style of the list is.  In the detailed text of any style that is not expanded they
stand with their own detailed texts in that style, and nothing of it reaches the brackets and the
commas.  Hence the two texts of a list agree without options where those of its leaves do. -/
theorem texts_are_leaves_in_brackets [PlainText α] [DetailText α] :
    (∀ (n : Nat) (style : Style) (l : Nested α (n + 1)),
      plainText style l = Nested.bracketed (plainText .plain) (n + 1) l)
    ∧ (∀ (n : Nat) (style : Style), style.expanded = false → ∀ l : Nested α (n + 1),
        detailText style l = Nested.bracketed (detailText style) (n + 1) l)
    ∧ (∀ (n : Nat) (l : Nested α (n + 1)),
        (∀ a ∈ Nested.leaves (n + 1) l, plainText .plain a = detailText .plain a) →
          ∀ style : Style, plainText style l = detailText .plain l) := by
  have plain : ∀ (n : Nat) (style : Style) (l : Nested α (n + 1)),
      plainText style l = Nested.bracketed (plainText .plain) (n + 1) l := by
    intro n style l
    -- the style given to the list is never looked at
    exact Nested.plainText_eq_bracketed (n + 1) l
  refine ⟨plain, ?_, ?_⟩
  · intro n style h
    exact Nested.detailText_eq_bracketed h (n + 1)
  · intro n l h style
    calc plainText style l
        = Nested.bracketed (plainText .plain) (n + 1) l := plain n style l
      _ = Nested.bracketed (detailText .plain) (n + 1) l := Nested.bracketed_congr (n + 1) l h
      _ = detailText .plain l := (Nested.detailText_eq_bracketed rfl (n + 1) l).symm

/-- In base sixteen and in fields of five characters, the numbers of `[[10, -1], []]` change in the
detailed text and the brackets do not; the plain text stays what it is. -/
theorem texts_of_hexadecimal_fields_in_brackets :
    let l : Nested Int64 2 := ofList [ofList [(10 : Int64), (-1 : Int64)], nil]
    let style : Style := { hexadecimal := true, width := 5 }
    style.expanded = false
      ∧ plainText style l = "[[10, -1], []]"
      ∧ detailText style l = "[[    a, ffffffffffffffff], []]"
      ∧ (∀ a ∈ Nested.leaves 2 l, plainText .plain a = detailText .plain a)
      ∧ plainText style l = detailText .plain l := by
  intro l style
  obtain ⟨plain, detailed, agree⟩ := texts_are_leaves_in_brackets (α := Int64)
  have hleaves : ∀ a ∈ Nested.leaves 2 l, plainText .plain a = detailText .plain a := by
    intro a _
    exact (if_neg Bool.false_ne_true).symm
  refine ⟨rfl, ?_, ?_, hleaves, agree 1 l hleaves style⟩
  · rw [plain 1 style l]
    decide +kernel
  · rw [detailed 1 style rfl l]
    decide +kernel

end ConsList

end Stepwise
