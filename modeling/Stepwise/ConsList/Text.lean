/-
  Stepwise.ConsList.Text
  ────────────────────────────────────────────────────────────────────────────
  **THE TEXTS OF A LIST.**

  The plain text is written in one pass and takes no notice of the style; the
  detailed text hands the style on to the elements.
-/
import Stepwise.ConsList.Basic
import Stepwise.Text.Form
import Stepwise.Text.Layout

namespace Stepwise.ConsList

open Text

universe u

variable {α : Type u}

/-- A text that is being written, and whether an element still has to come first. -/
structure Writing where
  /-- What is written already. -/
  text : String
  /-- Whether no element is written yet. -/
  first : Bool

/-- Writes one more element, behind a comma unless it is the first. -/
def Writing.element (w : Writing) (element : String) : Writing :=
  ⟨(if w.first then w.text else w.text ++ ", ") ++ element, false⟩

/-- The opening bracket and the plain texts of the elements, written in one pass. -/
def opened [PlainText α] (l : ConsList α) : Writing :=
  l.foldLeft (fun a w => w.element (plainText .plain a)) ⟨"[", true⟩

/-- The elements are written without options, whatever the style of the list. -/
instance [PlainText α] : PlainText (ConsList α) := ⟨fun _ l => l.opened.text ++ "]"⟩

/-- The elements are written in the style of the list. -/
instance [DetailText α] : DetailText (ConsList α) where
  detailText style l := Layout.sequence style (l.toList.map (detailText style))

end Stepwise.ConsList
