/-
  Stepwise.Text.Style
  ────────────────────────────────────────────────────────────────────────────
  **OPTIONS OF A TEXT FORM.**

  Which of them a value heeds is the value's own affair.
-/

namespace Stepwise.Text

/-! ## §1. Styles. -/

/-- The place of the text in a field. -/
inductive Align where
  /-- The text comes first and the filling follows. -/
  | left
  /-- The filling comes first. -/
  | right
  /-- The text is in the middle; of an odd filling the larger part follows. -/
  | center
deriving DecidableEq

/-- The options of a text form; by default none of them is set. -/
structure Style where
  /-- Compound values have each part on a line of its own, and a base is named. -/
  expanded : Bool := false
  /-- Integers are written in base sixteen. -/
  hexadecimal : Bool := false
  /-- The digits above nine are capital letters. -/
  capitals : Bool := false
  /-- The least number of characters of a field. -/
  width : Nat := 0
  /-- The largest number of characters of a text. -/
  precision : Option Nat := none
  /-- The place in the field to use instead of the usual one. -/
  align : Option Align := none
  /-- The character that fills a field up. -/
  fill : Char := ' '
  /-- A number has a sign also when it is not negative. -/
  signed : Bool := false
  /-- Numbers are filled up with zeros behind their sign, whatever stands for text. -/
  zeros : Bool := false
deriving DecidableEq

/-- The style in which no option is set. -/
def Style.plain : Style := {}

/-! ## §2. Fields. -/

/-- The text filled up to the width of the style; `usual` is its place in the field unless the style
names one. -/
def Style.pad (style : Style) (usual : Align) (text : String) : String :=
  let missing := style.width - text.length
  let before :=
    match style.align.getD usual with
    | .left => 0
    | .right => missing
    | .center => missing / 2
  String.ofList (List.replicate before style.fill) ++ text ++
    String.ofList (List.replicate (missing - before) style.fill)

/-- A text in its field, cut to the precision of the style. -/
def Style.word (style : Style) (text : String) : String :=
  match style.precision with
  | none => style.pad .left text
  | some n => style.pad .left (String.ofList (text.toList.take n))

/-- A number in its field: its sign, in expanded style the name of its base, and its digits. -/
def Style.number (style : Style) (negative : Bool) (base digits : String) : String :=
  let sign := if negative then "-" else if style.signed then "+" else ""
  let head := if style.expanded then sign ++ base else sign
  if style.zeros then
    head ++ String.ofList (List.replicate (style.width - (head ++ digits).length) '0') ++ digits
  else style.pad .right (head ++ digits)

/-! ## §3. Integers. -/

/-- A number in base sixteen, with lower-case digits and no leading zero. -/
def hexDigits (n : Nat) : String := String.ofList (Nat.toDigits 16 n)

/-- An integer in base ten. -/
def Style.decimal (style : Style) (n : Int) : String :=
  style.number (n < 0) "" (toString n.natAbs)

/-- The bits of a word as a number in base sixteen. -/
def Style.bits (style : Style) (n : Nat) : String :=
  style.number false "0x" (if style.capitals then (hexDigits n).map Char.toUpper else hexDigits n)

/-! ## §4. Without options. -/

theorem Style.pad_of_width_zero {style : Style} (h : style.width = 0) (usual : Align)
    (text : String) : style.pad usual text = text := by
  unfold Style.pad
  rw [h, Nat.zero_sub]
  cases style.align.getD usual <;> simp

theorem Style.number_plain (negative : Bool) (base digits : String) :
    Style.plain.number negative base digits = (if negative then "-" else "") ++ digits := by
  show Style.plain.pad .right _ = _
  rw [pad_of_width_zero rfl]
  rfl

theorem Style.decimal_plain (n : Int) : Style.plain.decimal n = toString n := by
  rw [decimal, number_plain]
  cases n with
  | ofNat n => exact String.empty_append
  | negSucc n =>
    rw [Int.toString_eq_repr, Int.repr, Nat.toString_eq_repr, Int.natAbs_negSucc,
      if_pos (decide_eq_true (Int.negSucc_lt_zero n))]

end Stepwise.Text
