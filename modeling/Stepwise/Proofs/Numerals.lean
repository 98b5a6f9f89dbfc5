/-
  Stepwise.Proofs.Numerals
  ────────────────────────────────────────────────────────────────────────────
  **THE SPELLING OF A NUMBER, AND WHERE IT ENDS.**

  A number could be spelled with zeros in front, with a sign before zero, or as
  another number of the same 64 bits.  Only the spelling that is written stands
  for it.
-/
import Stepwise.Text.Form

namespace Stepwise.Text.Numeral

/-! ## §1. Values. -/

/-- The number that a spelling stands for: a sign or none, and then digits. -/
def valueOf : List Char → Int
  | '-' :: digits => -(Nat.ofDigitChars 10 digits 0 : Nat)
  | digits => (Nat.ofDigitChars 10 digits 0 : Nat)

theorem valueOf_toDigits (n : Nat) : valueOf (Nat.toDigits 10 n) = n := by
  have hvalue : Nat.ofDigitChars 10 (Nat.toDigits 10 n) 0 = n :=
    Nat.ofDigitChars_toDigits (by decide) (by decide)
  unfold valueOf
  split
  · rename_i digits hminus
    -- no digit is a sign
    have hdigit : Char.isDigit '-' = true :=
      Nat.isDigit_of_mem_toDigits (b := 10) (n := n) (by decide) (by decide)
        (by rw [hminus]; exact List.mem_cons_self)
    exact absurd hdigit (by decide)
  · rw [hvalue]

theorem toList_repr (n : Int) :
    n.repr.toList
      = if 0 ≤ n then Nat.toDigits 10 n.toNat else '-' :: Nat.toDigits 10 (-n).toNat := by
  rw [Int.repr_eq_if]
  split
  · rw [Nat.repr_eq_ofList_toDigits, String.toList_ofList]
  · rw [String.toList_append, Nat.repr_eq_ofList_toDigits, String.toList_ofList]
    simp

theorem valueOf_repr (n : Int) : valueOf n.repr.toList = n := by
  rw [toList_repr]
  split
  · rw [valueOf_toDigits]
    omega
  · show -(Nat.ofDigitChars 10 (Nat.toDigits 10 (-n).toNat) 0 : Int) = n
    rw [Nat.ofDigitChars_toDigits (by decide) (by decide)]
    omega

/-! ## §2. Spellings. -/

theorem plainText_int64 (n : Int64) : plainText .plain n = n.toInt.repr :=
  Style.decimal_plain n.toInt

/-- The number that is written as `spelling`, if one is. -/
def ofSpelling (spelling : List Char) : Option Int64 :=
  (some (Int64.ofInt (valueOf spelling))).filter fun n => (plainText .plain n).toList = spelling

/-- No number has two spellings, and no spelling stands for two numbers. -/
theorem ofSpelling_eq_some_iff (spelling : List Char) (n : Int64) :
    ofSpelling spelling = some n ↔ (plainText .plain n).toList = spelling := by
  rw [ofSpelling, Option.filter_eq_some_iff, Option.some.injEq, decide_eq_true_eq]
  constructor
  · intro h
    exact h.2
  · rintro rfl
    rw [plainText_int64, valueOf_repr]
    exact ⟨Int64.ofInt_toInt n, rfl⟩

/-! ## §3. Where a spelling ends. -/

/-- The characters of which numbers are made. -/
def isNumeral (c : Char) : Bool := c.isDigit || c == '-'

/-- A text that does not go on with a number. -/
def Closed (text : List Char) : Prop := ∀ c ∈ text.head?, isNumeral c = false

theorem closed_nil : Closed [] := by
  intro c hc
  exact absurd hc (by simp)

theorem isNumeral_of_mem_repr (n : Int) : ∀ c ∈ n.repr.toList, isNumeral c = true := by
  have hdigits : ∀ m : Nat, ∀ c ∈ Nat.toDigits 10 m, isNumeral c = true := by
    intro m c hc
    rw [isNumeral, Nat.isDigit_of_mem_toDigits (by decide) (by decide) hc, Bool.true_or]
  rw [toList_repr]
  split
  · exact hdigits _
  · exact List.forall_mem_cons.mpr ⟨rfl, hdigits _⟩

theorem isNumeral_of_mem_plainText (n : Int64) :
    ∀ c ∈ (plainText .plain n).toList, isNumeral c = true := by
  rw [plainText_int64]
  exact isNumeral_of_mem_repr n.toInt

/-- The empty spelling would stand for zero, which is written otherwise. -/
theorem exists_plainText_eq_cons (n : Int64) :
    ∃ c text, (plainText .plain n).toList = c :: text ∧ isNumeral c = true := by
  have hnumeral := isNumeral_of_mem_plainText n
  cases htext : (plainText .plain n).toList with
  | nil =>
      rw [plainText_int64] at htext
      have hvalue := valueOf_repr n.toInt
      rw [htext] at hvalue
      rw [← hvalue] at htext
      exact absurd htext (by decide)
  | cons c text =>
      rw [htext] at hnumeral
      exact ⟨c, text, rfl, hnumeral c List.mem_cons_self⟩

/-- The characters of a number end where a closed text begins. -/
theorem span_append {spelling rest : List Char}
    (hspelling : ∀ c ∈ spelling, isNumeral c = true) (hrest : Closed rest) :
    (spelling ++ rest).takeWhile isNumeral = spelling
      ∧ (spelling ++ rest).dropWhile isNumeral = rest := by
  rw [List.takeWhile_append_of_pos hspelling, List.dropWhile_append_of_pos hspelling]
  cases rest with
  | nil => simp
  | cons c rest =>
      have hc : isNumeral c = false := hrest c rfl
      simp [hc]

end Stepwise.Text.Numeral
