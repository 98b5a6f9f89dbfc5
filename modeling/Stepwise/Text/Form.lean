/-
  Stepwise.Text.Form
  ────────────────────────────────────────────────────────────────────────────
  **THE TWO TEXT FORMS OF A VALUE.**

  The plain form is meant to stand inside running text; the detailed form quotes
  strings and shows how compound values are put together.
-/
import Stepwise.Text.Style

namespace Stepwise

open Text

universe u

/-! ## §1. The two forms. -/

/-- Values with a plain text form. -/
class PlainText (α : Type u) where
  /-- The plain text of a value in a style. -/
  plainText : Style → α → String

export PlainText (plainText)

/-- Values with a detailed text form. -/
class DetailText (α : Type u) where
  /-- The detailed text of a value in a style. -/
  detailText : Style → α → String

export DetailText (detailText)

/-! ## §2. Strings between quotes. -/

namespace Text.Quoted

/-- The control characters: those below the blank, and the block that begins with delete. -/
def isControl (c : Char) : Bool := c.toNat < 0x20 || (0x7f ≤ c.toNat && c.toNat < 0xa0)

/-- How a character is written inside the quotes.  The usual control characters have letters, the
others their number in base sixteen; all else stands for itself. -/
def escape (c : Char) : String :=
  match c with
  | '"' => "\\\""
  | '\\' => "\\\\"
  | '\n' => "\\n"
  | '\r' => "\\r"
  | '\t' => "\\t"
  | '\x00' => "\\0"
  | c => if isControl c then "\\u\x7b" ++ hexDigits c.toNat ++ "\x7d" else String.singleton c

/-- The string between quotes. -/
def encode (text : String) : String :=
  "\"" ++ String.join (text.toList.map escape) ++ "\""

end Text.Quoted

/-! ## §3. Simple values. -/

/-- A truth value is a word. -/
instance : PlainText Bool := ⟨fun style b => style.word (if b then "true" else "false")⟩

instance : DetailText Bool := ⟨plainText⟩

instance : PlainText Int64 := ⟨fun style n => style.decimal n.toInt⟩

/-- In base sixteen a number stands for its 64 bits, so a negative one has all sixteen digits. -/
instance : DetailText Int64 where
  detailText style n :=
    if style.hexadecimal then style.bits n.toUInt64.toNat else plainText style n

instance : PlainText UInt64 := ⟨fun style n => style.decimal n.toNat⟩

instance : DetailText UInt64 where
  detailText style n :=
    if style.hexadecimal then style.bits n.toNat else plainText style n

/-- A string stands for itself. -/
instance : PlainText String := ⟨fun style text => style.word text⟩

/-- A string is quoted, and fills no field. -/
instance : DetailText String := ⟨fun _ text => Quoted.encode text⟩

end Stepwise
