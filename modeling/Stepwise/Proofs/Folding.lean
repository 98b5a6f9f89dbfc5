/-
  Stepwise.Proofs.Folding
  ────────────────────────────────────────────────────────────────────────────
  **THE FOLD AGAINST APPEND AND REVERSE.**

  The fold is a loop from the head on; the other two run composed continuations
  from the last element on.  None of the three is defined by another.
-/
import Stepwise.ConsList.Append

namespace Stepwise.ConsList

universe u v

variable {α : Type u} {β : Type v}

/-! ## §1. The fold from the right. -/

/-- Takes an accumulator through the list, from the last element to the head. -/
def foldRight (f : α → β → β) (acc : β) : ConsList α → β
  | nil => acc
  | cons a l => f a (foldRight f acc l)

/-! ## §2. Append and reverse, cell by cell. -/

@[simp] theorem nil_append (r : ConsList α) : nil.append r = r :=
  toList_injective (by simp)

@[simp] theorem append_nil (l : ConsList α) : l.append nil = l :=
  toList_injective (by simp)

@[simp] theorem cons_append (a : α) (l r : ConsList α) :
    (cons a l).append r = cons a (l.append r) :=
  toList_injective (by simp)

theorem append_singleton_append (l r : ConsList α) (a : α) :
    (l.append (singleton a)).append r = l.append (cons a r) :=
  toList_injective (by simp)

@[simp] theorem reverse_nil : (nil : ConsList α).reverse = nil :=
  toList_injective (by simp)

/-- The head comes last, behind the rest in opposite order. -/
theorem reverse_cons (a : α) (l : ConsList α) :
    (cons a l).reverse = l.reverse.append (singleton a) :=
  toList_injective (by simp)

/-! ## §3. The loop over them. -/

theorem foldLeft_append (f : α → β → β) (l r : ConsList α) :
    ∀ acc : β, (l.append r).foldLeft f acc = r.foldLeft f (l.foldLeft f acc) := by
  induction l with
  | nil => intro acc; rw [nil_append, foldLeft_nil]
  | cons a l ih =>
      intro acc
      rw [cons_append, foldLeft_cons, ih, foldLeft_cons]

theorem foldLeft_reverse (f : α → β → β) (acc : β) (l : ConsList α) :
    l.reverse.foldLeft f acc = l.foldRight f acc := by
  induction l with
  | nil => rw [reverse_nil, foldLeft_nil, foldRight]
  | cons a l ih =>
      -- the head is met last, when the loop has been through the rest
      calc (cons a l).reverse.foldLeft f acc
          = (singleton a).foldLeft f (l.reverse.foldLeft f acc) := by
              rw [reverse_cons, foldLeft_append]
        _ = f a (l.reverse.foldLeft f acc) := rfl
        _ = f a (l.foldRight f acc) := by rw [ih]
        _ = (cons a l).foldRight f acc := rfl

/-- Each element that the loop prepends comes in front of those before it. -/
theorem foldLeft_cons_eq_reverse_append (l : ConsList α) :
    ∀ acc : ConsList α, l.foldLeft cons acc = l.reverse.append acc := by
  induction l with
  | nil => intro acc; rw [foldLeft_nil, reverse_nil, nil_append]
  | cons a l ih =>
      intro acc
      rw [foldLeft_cons, ih, reverse_cons, append_singleton_append]

theorem foldLeft_cons_nil (l : ConsList α) : l.foldLeft cons nil = l.reverse := by
  rw [foldLeft_cons_eq_reverse_append, append_nil]

/-- **THE FOLD GOES THROUGH APPENDED LISTS ONE AFTER THE OTHER, AND THROUGH A REVERSED LIST FROM
THE RIGHT**, for every function, whether or not the order of its calls matters to it, and from
every accumulator.  With `cons` it gives the reversed list itself, in one pass and without a
drive. -/
theorem fold_goes_through_append_and_reverse :
    (∀ (f : α → β → β) (acc : β) (l r : ConsList α),
      (l.append r).foldLeft f acc = r.foldLeft f (l.foldLeft f acc))
    ∧ (∀ (f : α → β → β) (acc : β) (l : ConsList α),
        l.reverse.foldLeft f acc = l.foldRight f acc)
    ∧ (∀ l : ConsList α, l.foldLeft cons nil = l.reverse) := by
  refine ⟨?_, foldLeft_reverse, foldLeft_cons_nil⟩
  intro f acc l r
  exact foldLeft_append f l r acc

/-- A function that is sensitive to the order of its calls. -/
example : ((ofList [1, 2]).append (ofList [3, 4])).reverse.foldLeft (fun a n => n * 10 + a) 0
    = 4321 := by decide

end Stepwise.ConsList
