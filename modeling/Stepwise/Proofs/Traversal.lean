/-
  Stepwise.Proofs.Traversal
  ────────────────────────────────────────────────────────────────────────────
  **THE TRAVERSAL BY CONTINUATIONS VISITS IN PRE-ORDER.**

  It works backwards, the native recursion forwards.  A node costs six steps,
  whatever is below it, so the log tells the size of a tree and not its shape.
-/
import Stepwise.ConsList.Append
import Stepwise.Tree.Preorder

namespace Stepwise.Tree

universe u

variable {α : Type u}

/-! ## §1. One node. -/

/-- Three steps lead to the right subtree, two more to the left one, and one more to the root. -/
theorem apply_preorderOnto_node (l : Tree α) (a : α) (r : Tree α) (rest : ConsList α)
    (k : ConsList α → Delay (ConsList α)) :
    ((node l a r).preorderOnto rest).apply k
      = .after 3 ((r.preorderOnto rest).apply fun withRight =>
          .after 2 ((l.preorderOnto withRight).apply fun withLeft =>
            .after 1 (k (.cons a withLeft)))) := rfl

/-- The values of a node in front of a list: those of the right subtree are nearest to it. -/
theorem foldr_cons_values_node (l : Tree α) (a : α) (r : Tree α) (rest : ConsList α) :
    (node l a r).values.foldr .cons rest
      = .cons a (l.values.foldr .cons (r.values.foldr .cons rest)) := by
  rw [values, List.foldr_cons, List.foldr_append]

/-! ## §2. The whole tree. -/

theorem apply_preorderOnto (t : Tree α) :
    ∀ (rest : ConsList α) (k : ConsList α → Delay (ConsList α)),
      (t.preorderOnto rest).apply k
        = .after (6 * t.nodeCount) (k (t.values.foldr .cons rest)) := by
  -- while the right subtree is visited, the left one is still in the continuation
  induction t with
  | empty => intro rest k; rfl
  | node l a r ihl ihr =>
      intro rest k
      have hsteps : 3 + 6 * r.nodeCount + 2 + 6 * l.nodeCount + 1
          = 6 * (node l a r).nodeCount := by
        rw [nodeCount]
        omega
      -- the right subtree first, and the left one from the list that comes out of it
      rw [apply_preorderOnto_node, ihr, ihl, foldr_cons_values_node, ← hsteps]
      rw [Delay.after_add, Delay.after_add, Delay.after_add, Delay.after_add]

theorem preorder_eq_foldr (t : Tree α) : t.preorder = t.values.foldr .cons .nil := by
  show ((t.preorderOnto .nil).apply .now).drive.value = _
  rw [apply_preorderOnto, Delay.drive_after_now]

@[simp] theorem toList_preorder (t : Tree α) : t.preorder.toList = t.values := by
  rw [preorder_eq_foldr, ConsList.toList_foldr_cons, ConsList.toList_nil, List.append_nil]

theorem preorder_eq_preorderNatively (t : Tree α) : t.preorder = t.preorderNatively := by
  apply ConsList.toList_injective
  rw [toList_preorder, toList_preorderNatively]

/-- The root, then the left subtree, then the right one. -/
theorem preorder_node_eq (l : Tree α) (a : α) (r : Tree α) :
    (node l a r).preorder = .cons a (l.preorder.append r.preorder) := by
  apply ConsList.toList_injective
  rw [ConsList.toList_cons, ConsList.toList_append, toList_preorder, toList_preorder,
    toList_preorder, values]

/-- **BOTH TRAVERSALS GIVE THE PRE-ORDER SEQUENCE**, for every shape and depth of the tree: the
traversal by continuations and the native recursion give the same list, which has the values of the
tree as its elements.  It is empty for the empty tree, and for a node it is the root in front of
the list of the left subtree followed by that of the right one. -/
theorem preorder_is_root_left_right (t : Tree α) :
    t.preorder = t.preorderNatively
    ∧ t.preorder.toList = t.values
    ∧ t.preorderNatively.toList = t.values
    ∧ (empty : Tree α).preorder = .nil
    ∧ ∀ (l : Tree α) (a : α) (r : Tree α),
        (node l a r).preorder = .cons a (l.preorder.append r.preorder) := by
  refine ⟨?_, ?_, ?_, ?_, ?_⟩
  · exact t.preorder_eq_preorderNatively
  · exact t.toList_preorder
  · exact t.toList_preorderNatively
  · -- no step is called for the empty tree
    exact preorder_eq_foldr empty
  · exact preorder_node_eq

/-- Each subtree is listed as a whole before the next one begins. -/
example : (node (node empty 1 (leaf 4)) 2 (leaf 3)).preorder.toList = [2, 1, 4, 3] := rfl

/-! ## §3. The steps, and the log. -/

theorem foldr_cons_values_eq_ofList (t : Tree α) (rest : ConsList α) :
    t.values.foldr .cons rest = .ofList (t.values ++ rest.toList) := by
  apply ConsList.toList_injective
  rw [ConsList.toList_foldr_cons, ConsList.toList_ofList]

/-- The same in terms of the tree's own size, which a loop over pending subtrees counts. -/
theorem apply_preorderOnto_eq_after_size (t : Tree α) (rest : ConsList α)
    (k : ConsList α → Delay (ConsList α)) :
    (t.preorderOnto rest).apply k
      = .after (6 * t.size) (k (.ofList (t.values ++ rest.toList))) := by
  rw [apply_preorderOnto, foldr_cons_values_eq_ofList, size_eq_nodeCount]

theorem preorderTraced_eq (t : Tree α) :
    t.preorderTraced = ⟨.ofList t.values, [.finished (6 * t.size)]⟩ := by
  show ((t.preorderOnto .nil).apply .now).drive = _
  rw [apply_preorderOnto_eq_after_size, Delay.drive_after_now, ConsList.toList_nil,
    List.append_nil]

/-- **The log tells the size of a tree, and nothing of its shape.** -/
theorem events_preorderTraced_eq_iff (t t' : Tree α) :
    t.preorderTraced.events = t'.preorderTraced.events ↔ t.size = t'.size := by
  rw [preorderTraced_eq, preorderTraced_eq]
  constructor
  · intro h
    have hsteps : 6 * t.size = 6 * t'.size := by simpa using h
    omega
  · intro h
    rw [h]

/-- **A TRAVERSAL TAKES SIX STEPS FOR EACH NODE**, whatever the shape of the tree, the list that
follows it and the continuation.  These steps are nothing but steps: after any number of them the
others are still to come, and behind them stands the continuation itself, at the values of the tree
in pre-order followed by the list.  It adds its own steps and events to those of the traversal.  So
listing a tree is one drive, and its log is one event, which tells the size of the tree. -/
theorem traversal_takes_six_steps_per_node (t : Tree α) :
    (∀ (rest : ConsList α) (k : ConsList α → Delay (ConsList α)),
      let d := (t.preorderOnto rest).apply k
      let following := k (.ofList (t.values ++ rest.toList))
      d = .after (6 * t.size) following
      ∧ (∀ i, i ≤ 6 * t.size → d.advance i = .paused (.after (6 * t.size - i) following))
      ∧ d.drive
          = ⟨following.run, following.events ++ [.finished (following.steps + 6 * t.size)]⟩)
    ∧ t.preorderTraced = ⟨.ofList t.values, [.finished (6 * t.size)]⟩
    ∧ (∀ t' : Tree α, t.preorderTraced.events = t'.preorderTraced.events ↔ t.size = t'.size) := by
  refine ⟨?_, preorderTraced_eq t, events_preorderTraced_eq_iff t⟩
  intro rest k d following
  have hd : d = .after (6 * t.size) following := apply_preorderOnto_eq_after_size t rest k
  refine ⟨hd, ?_, ?_⟩
  · -- the continuation is not called before the last step
    intro i hi
    rw [hd]
    exact Delay.advanceFrom_after following i (6 * t.size) 0 hi
  · rw [hd, Delay.drive_after]

/-- Two nodes one below the other in front of a list, under a continuation with a step of its own:
the continuation is met after twelve steps, and the thirteenth is its own. -/
theorem traversal_takes_twelve_steps_for_two_nodes :
    let t : Tree Nat := node empty 1 (leaf 2)
    let k : ConsList Nat → Delay (ConsList Nat) := fun l => .later fun _ => .now l.tail
    let d := (t.preorderOnto (.singleton 7)).apply k
    12 ≤ 6 * t.size
      ∧ d.advance 12 = .paused (k (.ofList [1, 2, 7]))
      ∧ d.drive = ⟨.ofList [2, 7], [.finished 13]⟩
      ∧ (node (leaf 3) 4 empty).size = t.size
      ∧ (node (leaf 3) 4 empty).preorderTraced.events = t.preorderTraced.events := by
  intro t k d
  have hsize : t.size = 2 := size_eq_nodeCount t
  have hsize' : (node (leaf 3) 4 empty).size = t.size := by
    rw [size_eq_nodeCount, size_eq_nodeCount]
    rfl
  have hle : 12 ≤ 6 * t.size := by omega
  obtain ⟨steps, -, -⟩ := traversal_takes_six_steps_per_node t
  obtain ⟨-, paused, driven⟩ := steps (.singleton 7) k
  obtain ⟨-, -, sizes⟩ := traversal_takes_six_steps_per_node (node (leaf 3) 4 empty)
  refine ⟨hle, ?_, ?_, hsize', (sizes t).mpr hsize'⟩
  · rw [paused 12 hle, hsize]
    rfl
  · rw [driven, hsize]
    rfl

end Stepwise.Tree
