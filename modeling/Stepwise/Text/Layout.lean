/-
  Stepwise.Text.Layout
  ────────────────────────────────────────────────────────────────────────────
  **HOW THE PARTS OF A COMPOUND VALUE ARE SET OUT.**

  Inline, with commas between the parts, or expanded, with every part on lines
  of its own.  The parts come in as texts.
-/
import Stepwise.Text.Style

namespace Stepwise.Text.Layout

/-! ## §1. Parts on lines of their own. -/

/-- The text with each of its lines four columns further in. -/
def indent (text : String) : String :=
  "    " ++ String.join (text.toList.map fun c => if c = '\n' then "\n    " else String.singleton c)

/-- The parts on lines of their own, each followed by a comma. -/
def lines (parts : List String) : String := String.join (parts.map fun part => indent part ++ ",\n")

/-- The parts on one line. -/
def inline (parts : List String) : String := ", ".intercalate parts

/-! ## §2. The three kinds of compound values. -/

/-- A sequence of entries in square brackets; the empty one has no lines to spread over. -/
def sequence (style : Style) (entries : List String) : String :=
  if style.expanded && !entries.isEmpty then "[\n" ++ lines entries ++ "]"
  else "[" ++ inline entries ++ "]"

/-- A name with its parts in parentheses. -/
def tuple (style : Style) (name : String) (parts : List String) : String :=
  if style.expanded then name ++ "(\n" ++ lines parts ++ ")"
  else name ++ "(" ++ inline parts ++ ")"

/-- A name with its fields, each behind its own name, in braces. -/
def record (style : Style) (name : String) (fields : List (String × String)) : String :=
  let parts := fields.map fun field => field.1 ++ ": " ++ field.2
  if style.expanded then name ++ " \x7b\n" ++ lines parts ++ "\x7d"
  else name ++ " \x7b " ++ inline parts ++ " \x7d"

/-- A name in front of braces that do not show what is inside. -/
def sealed (name : String) : String := name ++ " \x7b .. \x7d"

/-! ## §3. Inline sequences. -/

/-- Only the expanded style changes how a sequence is set out. -/
theorem sequence_of_not_expanded {style : Style} (h : style.expanded = false)
    (entries : List String) : sequence style entries = "[" ++ inline entries ++ "]" := by
  simp [sequence, h]

end Stepwise.Text.Layout
