/-
  Stepwise.Tree.Preorder
  ────────────────────────────────────────────────────────────────────────────
  **THE VALUES OF A TREE IN PRE-ORDER.**

  A cons list grows at its head, so the traversal by continuations works
  backwards; `preorderNatively` visits forwards and calls itself.
-/
import Stepwise.ConsList.Basic
import Stepwise.Cps.Basic
import Stepwise.Tree.Basic

namespace Stepwise.Tree

universe u

variable {α : Type u}

/-! ## §1. The sequence. -/

/-- The values of the tree: the root, those on the left, those on the right. -/
def values : Tree α → List α
  | empty => []
  | node l a r => a :: (l.values ++ r.values)

/-! ## §2. By continuations. -/

/-- The values of the tree in pre-order, in front of `rest`. -/
def preorderOnto : Tree α → ConsList α → Cps (ConsList α) (ConsList α)
  | empty, rest => Cps.pure rest
  | node l a r, rest =>
    (Cps.pure rest).bind fun rest =>
      (preorderOnto r rest).bind fun withRight =>
        (preorderOnto l withRight).bind fun withLeft => Cps.pure (.cons a withLeft)

/-- The values of the tree in pre-order, and the drive that this took. -/
def preorderTraced (t : Tree α) : Traced (ConsList α) := (t.preorderOnto .nil).runTraced

/-- The values of the tree in pre-order. -/
def preorder (t : Tree α) : ConsList α := t.preorderTraced.value

/-! ## §3. By native recursion. -/

/-- Puts the values of the tree behind `seen`, in pre-order. -/
def visit : Tree α → Array α → Array α
  | empty, seen => seen
  | node l a r, seen => r.visit (l.visit (seen.push a))

/-- The values of the tree in pre-order, by a recursion as deep as the tree. -/
def preorderNatively (t : Tree α) : ConsList α := .ofArray (t.visit #[])

theorem visit_eq (t : Tree α) (seen : Array α) : t.visit seen = seen ++ t.values.toArray := by
  induction t generalizing seen with
  | empty => simp [visit, values]
  | node l a r ihl ihr => simp [visit, values, ihl, ihr]

@[simp] theorem toList_preorderNatively (t : Tree α) : t.preorderNatively.toList = t.values := by
  simp [preorderNatively, visit_eq]

end Stepwise.Tree
