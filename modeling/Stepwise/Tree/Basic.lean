/-
  Stepwise.Tree.Basic
  ────────────────────────────────────────────────────────────────────────────
  **IMMUTABLE BINARY TREES.**

  A subtree may stand in several places and counts in each of them.  `size` is a
  loop over a stack of pending subtrees, `nodeCount` a recursion on the tree.
  Both count without bound; a machine word does as well for fewer than 2^64
  nodes.
-/
import Stepwise.Text.Form
import Stepwise.Text.Layout

namespace Stepwise

universe u

/-! ## §1. Trees. -/

/-- A binary tree with a value at each node. -/
inductive Tree (α : Type u) where
  /-- No node. -/
  | empty
  /-- A value between its two subtrees. -/
  | node (left : Tree α) (value : α) (right : Tree α)

namespace Tree

variable {α : Type u}

instance : EmptyCollection (Tree α) := ⟨empty⟩

instance : Inhabited (Tree α) := ⟨empty⟩

/-- The tree of a single node. -/
def leaf (a : α) : Tree α := node empty a empty

/-- Whether there is no node. -/
def isEmpty : Tree α → Bool
  | empty => true
  | node _ _ _ => false

/-- The value at the root. -/
def value? : Tree α → Option α
  | empty => none
  | node _ a _ => some a

/-! ## §2. Counting nodes. -/

/-- The number of nodes, with multiplicity. -/
def nodeCount : Tree α → Nat
  | empty => 0
  | node l _ r => l.nodeCount + 1 + r.nodeCount

/-- The number of nodes of several trees together. -/
def forestCount : List (Tree α) → Nat
  | [] => 0
  | t :: forest => t.nodeCount + forestCount forest

/-- The loop over the pending subtrees, the next one first, having counted `count` nodes. -/
def sizeFrom (count : Nat) : List (Tree α) → Nat
  | [] => count
  | empty :: pending => sizeFrom count pending
  | node l _ r :: pending => sizeFrom (count + 1) (l :: r :: pending)
termination_by pending => 2 * forestCount pending + pending.length
decreasing_by
  -- An empty subtree leaves the stack; a node makes way for its two subtrees.
  · simp only [forestCount, nodeCount, List.length_cons]
    omega
  · simp only [forestCount, nodeCount, List.length_cons]
    omega

/-- The number of nodes, counted by a loop over pending subtrees. -/
def size (t : Tree α) : Nat := sizeFrom 0 [t]

theorem sizeFrom_eq (count : Nat) (pending : List (Tree α)) :
    sizeFrom count pending = count + forestCount pending := by
  fun_induction sizeFrom count pending with
  | case1 count => rfl
  | case2 count pending ih =>
    rw [ih, forestCount, nodeCount]
    omega
  | case3 count l _ r pending ih =>
    rw [ih]
    simp only [forestCount, nodeCount]
    omega

theorem size_eq_nodeCount (t : Tree α) : t.size = t.nodeCount := by
  simp [size, sizeFrom_eq, forestCount]

/-! ## §3. The text of a tree. -/

open Text in
/-- The detailed text of a tree in a style, which is also that of its parts. -/
def describe [DetailText α] (style : Style) : Tree α → String
  | empty => "Empty"
  | node l a r =>
    Layout.tuple style "Node"
      [Layout.record style "TreeNode"
        [("left", l.describe style), ("value", detailText style a), ("right", r.describe style)]]

instance [DetailText α] : DetailText (Tree α) := ⟨describe⟩

end Tree

end Stepwise
