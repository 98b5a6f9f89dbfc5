/-
  Stepwise.Proofs.NodeCounts
  ────────────────────────────────────────────────────────────────────────────
  **THE LOOP OVER PENDING SUBTREES MEETS EVERY NODE ONCE.**

  The stack grows and shrinks while the loop runs; the nodes in it say how long
  that takes.  Nothing is assumed of the counter but that a node ticks it.
-/
import Mathlib.Data.Nat.SuccPred
import Mathlib.Tactic.Ring
import Stepwise.Proofs.Driving
import Stepwise.Proofs.Traversal

namespace Stepwise.Tree

open Transition (StopsIn)

universe u v

variable {α : Type u} {γ : Type v}

/-! ## §1. The loop, turn by turn. -/

/-- One turn of the loop, at a counter and a stack of pending subtrees with the next one first.  A
node ticks the counter and makes way for its two subtrees; with nothing pending the loop stops. -/
def turn (tick : γ → γ) : γ × List (Tree α) → Transition (γ × List (Tree α)) γ
  | (count, []) => .stop count
  | (count, empty :: pending) => .next (count, pending)
  | (count, node l _ r :: pending) => .next (tick count, l :: r :: pending)

/-- A tree on top of the stack is worked off before anything below it is looked at. -/
theorem stopsIn_turn_cons (tick : γ → γ) (t : Tree α) :
    ∀ (n : Nat) (count result : γ) (pending : List (Tree α)),
      StopsIn (turn tick) n (tick^[t.nodeCount] count, pending) result →
        StopsIn (turn tick) (n + (2 * t.nodeCount + 1)) (count, t :: pending) result := by
  -- counter and stack are general: the right subtree waits below while the left one is counted
  induction t with
  | empty =>
      intro n count result pending h
      exact .next rfl h
  | node l a r ihl ihr =>
      intro n count result pending h
      have hturns : n + (2 * (node l a r).nodeCount + 1)
          = n + (2 * r.nodeCount + 1) + (2 * l.nodeCount + 1) + 1 := by
        rw [nodeCount]
        omega
      have hticks : tick^[(node l a r).nodeCount] count
          = tick^[r.nodeCount] (tick^[l.nodeCount] (tick count)) := by
        rw [← Function.iterate_add_apply, ← Function.iterate_succ_apply, nodeCount]
        congr 2
        omega
      rw [hticks] at h
      rw [hturns]
      -- one turn for the node itself
      exact .next rfl (ihl _ _ _ _ (ihr _ _ _ _ h))

/-- From every stack the loop stops, and each node in it has ticked the counter once. -/
theorem stopsIn_turn (tick : γ → γ) (pending : List (Tree α)) :
    ∀ count : γ,
      StopsIn (turn tick) (2 * forestCount pending + pending.length) (count, pending)
        (tick^[forestCount pending] count) := by
  induction pending with
  | nil => intro count; exact .stop rfl
  | cons t pending ih =>
      intro count
      have hturns : 2 * forestCount (t :: pending) + (t :: pending).length
          = 2 * forestCount pending + pending.length + (2 * t.nodeCount + 1) := by
        rw [forestCount, List.length_cons]
        omega
      have hticks : tick^[forestCount (t :: pending)] count
          = tick^[forestCount pending] (tick^[t.nodeCount] count) := by
        rw [← Function.iterate_add_apply, forestCount, Nat.add_comm]
      rw [hturns, hticks]
      exact stopsIn_turn_cons tick t _ _ _ _ (ih _)

/-- There is no other way in which it stops. -/
theorem stopsIn_turn_iff (tick : γ → γ) (pending : List (Tree α)) (n : Nat) (count result : γ) :
    StopsIn (turn tick) n (count, pending) result
      ↔ n = 2 * forestCount pending + pending.length
        ∧ result = tick^[forestCount pending] count := by
  have hstops := stopsIn_turn tick pending count
  constructor
  · intro h
    exact h.unique hstops
  · rintro ⟨rfl, rfl⟩
    exact hstops

theorem iterate_eq_sizeFrom (pending : List (Tree α)) (count : Nat) :
    (· + 1)^[forestCount pending] count = sizeFrom count pending := by
  rw [sizeFrom_eq]
  exact Nat.succ_iterate count (forestCount pending)

theorem forestCount_singleton (t : Tree α) : forestCount [t] = t.size := by
  rw [size_eq_nodeCount]
  rfl

/-- A word that counts starts again after the last one. -/
theorem toNat_iterate_add_one (n : Nat) : ((· + 1)^[n] (0 : UInt64)).toNat = n % UInt64.size := by
  induction n with
  | zero => rfl
  | succ n ih =>
      rw [Function.iterate_succ_apply', UInt64.toNat_add, ih]
      exact Nat.mod_add_mod n UInt64.size 1

/-- **A word is enough** for every tree with fewer nodes than there are words: counting in words,
the loop stops in one way, and at the word of the size. -/
theorem stopsIn_turn_word_iff (t : Tree α) (h : t.size < UInt64.size) (n : Nat) (w : UInt64) :
    StopsIn (turn (· + 1)) n ((0 : UInt64), [t]) w ↔ n = 2 * t.size + 1 ∧ w.toNat = t.size := by
  rw [stopsIn_turn_iff, forestCount_singleton, ← UInt64.toNat_inj, toNat_iterate_add_one,
    Nat.mod_eq_of_lt h]
  rfl

/-! ## §2. A subtree in several places. -/

/-- The tree with `s` at each of its empty places. -/
def graft : Tree α → Tree α → Tree α
  | empty, s => s
  | node l a r, s => node (l.graft s) a (r.graft s)

theorem size_node (l : Tree α) (a : α) (r : Tree α) :
    (node l a r).size = l.size + 1 + r.size := by
  rw [size_eq_nodeCount, size_eq_nodeCount, size_eq_nodeCount, nodeCount]

/-- There is one empty place more than there are nodes, and the grafted tree counts in each. -/
theorem size_graft (t s : Tree α) : (t.graft s).size = t.size + (t.size + 1) * s.size := by
  induction t with
  | empty =>
      show s.size = (empty : Tree α).size + ((empty : Tree α).size + 1) * s.size
      rw [size_eq_nodeCount empty, nodeCount]
      omega
  | node l a r ihl ihr =>
      rw [graft, size_node, size_node, ihl, ihr]
      ring

/-! ## §3. What the traversals list. -/

theorem length_values (t : Tree α) : t.values.length = t.size := by
  induction t with
  | empty => rw [size_eq_nodeCount]; rfl
  | node l a r ihl ihr =>
      rw [values, List.length_cons, List.length_append, ihl, ihr, size_node]
      omega

theorem length_preorder (t : Tree α) : t.preorder.length = t.size := by
  rw [ConsList.length_eq, toList_preorder, length_values]

theorem length_preorderNatively (t : Tree α) : t.preorderNatively.length = t.size := by
  rw [ConsList.length_eq, toList_preorderNatively, length_values]

/-- **THE SIZE OF A TREE IS THE NUMBER OF ITS NODES, EACH PLACE COUNTED.**  The loop over pending
subtrees stops, in one way: after two turns for each node and one more, at the size.  That is zero
for the empty tree, and for a node it is one more than the sizes of the two subtrees together, which
may be the same tree; a tree that stands at every empty place of another counts in each of them.
Both traversals list as many values.  Whatever the loop counts in, be it numbers or machine words,
each node ticks the counter exactly once. -/
theorem size_counts_nodes_at_every_place (t : Tree α) :
    (∀ n count : Nat,
      StopsIn (turn (· + 1)) n (0, [t]) count ↔ n = 2 * t.size + 1 ∧ count = t.size)
    ∧ (empty : Tree α).size = 0
    ∧ (∀ (l : Tree α) (a : α) (r : Tree α), (node l a r).size = l.size + 1 + r.size)
    ∧ (∀ s : Tree α, (t.graft s).size = t.size + (t.size + 1) * s.size)
    ∧ t.preorder.length = t.size
    ∧ t.preorderNatively.length = t.size
    ∧ (∀ (tick : γ → γ) (count : γ),
        StopsIn (turn tick) (2 * t.size + 1) (count, [t]) (tick^[t.size] count)) := by
  refine ⟨?_, size_eq_nodeCount empty, size_node, size_graft t, length_preorder t,
    length_preorderNatively t, ?_⟩
  · intro n count
    rw [stopsIn_turn_iff, iterate_eq_sizeFrom, forestCount_singleton]
    rfl
  · intro tick count
    have h := stopsIn_turn tick [t] count
    rwa [forestCount_singleton] at h

/-- The same subtree on both sides, at two levels. -/
example : let s := node (leaf 1) 2 (leaf 1); (node s 3 s).size = 7 := by cbv

end Stepwise.Tree
