/-
  Stepwise.ConsList.Nested
  ────────────────────────────────────────────────────────────────────────────
  **LISTS OF LISTS, TO ANY DEPTH.**

  `Nested α n` are the lists over `α` that are `n` deep, `α` itself at depth
  zero.  Equality, key bytes and both texts are those of a list at every level.
-/
import Stepwise.ConsList.Basic
import Stepwise.Key.Bytes
import Stepwise.ConsList.Text

namespace Stepwise.ConsList

open Text

universe u

/-! ## §1. Nested lists. -/

/-- Lists of lists of … of `α`, `n` levels deep. -/
def Nested (α : Type u) : Nat → Type u
  | 0 => α
  | n + 1 => ConsList (Nested α n)

namespace Nested

variable {α : Type u}

instance instBEq [BEq α] : (n : Nat) → BEq (Nested α n)
  | 0 => inferInstanceAs (BEq α)
  | n + 1 =>
    let _ : BEq (Nested α n) := instBEq n
    inferInstanceAs (BEq (ConsList (Nested α n)))

instance instKeyBytes [KeyBytes α] : (n : Nat) → KeyBytes (Nested α n)
  | 0 => inferInstanceAs (KeyBytes α)
  | n + 1 =>
    let _ : KeyBytes (Nested α n) := instKeyBytes n
    inferInstanceAs (KeyBytes (ConsList (Nested α n)))

instance instPlainText [PlainText α] : (n : Nat) → PlainText (Nested α n)
  | 0 => inferInstanceAs (PlainText α)
  | n + 1 =>
    let _ : PlainText (Nested α n) := instPlainText n
    inferInstanceAs (PlainText (ConsList (Nested α n)))

instance instDetailText [DetailText α] : (n : Nat) → DetailText (Nested α n)
  | 0 => inferInstanceAs (DetailText α)
  | n + 1 =>
    let _ : DetailText (Nested α n) := instDetailText n
    inferInstanceAs (DetailText (ConsList (Nested α n)))

/-! ## §2. The text that the leaves determine. -/

/-- The texts of the leaves, with a comma between neighbours and brackets around each list. -/
def bracketed (leaf : α → String) : (n : Nat) → Nested α n → String
  | 0, a => leaf a
  | n + 1, l => "[" ++ Layout.inline ((toList l).map (bracketed leaf n)) ++ "]"

end Nested

end Stepwise.ConsList
