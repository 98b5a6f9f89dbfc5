/-
  Stepwise.Proofs.Equality
  ────────────────────────────────────────────────────────────────────────────
  **LISTS ARE EQUAL PLACE BY PLACE, AND IN NO OTHER WAY.**

  Of the elements' equality nothing is assumed: where an element differs from
  itself, as a NaN does, so does the list, and no step of a proof may replace a
  list by an equal one.
-/
import Mathlib.Data.List.Forall2
import Stepwise.ConsList.Cursor
import Stepwise.Proofs.ListDrives

namespace Stepwise.ConsList

universe u

variable {α : Type u}

/-! ## §1. Two cursors in lockstep. -/

/-- The rest behind a cursor's answer is shorter. -/
theorem Cursor.sizeOf_rest_lt {c d : Cursor α} {a : α} (h : c.next = (some a, d)) :
    sizeOf d.rest < sizeOf c.rest := by
  obtain ⟨l⟩ := c
  cases l with
  | nil => simp [next] at h
  | cons b l =>
      obtain ⟨-, rfl⟩ : b = a ∧ (⟨l⟩ : Cursor α) = d := by simpa [next] using h
      simp

variable [BEq α]

/-- Calls both cursors, compares their answers, and goes on for as long as these are equal; they
agree if none of the two has an answer in the end. -/
def Cursor.lockstep (c d : Cursor α) : Bool :=
  match h : c.next, d.next with
  | (some a, c'), (some b, d') =>
    have := Cursor.sizeOf_rest_lt h
    a == b && lockstep c' d'
  | (none, _), (none, _) => true
  | _, _ => false
termination_by sizeOf c.rest

theorem Cursor.lockstep_cons (a b : α) (l r : ConsList α) :
    (⟨cons a l⟩ : Cursor α).lockstep ⟨cons b r⟩ = (a == b && lockstep ⟨l⟩ ⟨r⟩) := by
  rw [lockstep]
  rfl

/-- **Equality is the comparison of two cursors in lockstep.** -/
theorem lockstep_eq_beq (l : ConsList α) :
    ∀ r : ConsList α, l.cursor.lockstep r.cursor = (l == r) := by
  -- both cursors move at once
  induction l with
  | nil =>
      intro r
      unfold cursor
      rw [Cursor.lockstep]
      cases r <;> rfl
  | cons a l ih =>
      intro r
      cases r with
      | nil =>
          unfold cursor
          rw [Cursor.lockstep]
          rfl
      | cons b r =>
          show (⟨cons a l⟩ : Cursor α).lockstep ⟨cons b r⟩ = (a == b && l == r)
          rw [Cursor.lockstep_cons, ← ih r]
          rfl

/-! ## §2. Place by place. -/

/-- Equal lists end together, and their elements are equal at every place. -/
theorem beq_iff_forall₂ (l : ConsList α) :
    ∀ r : ConsList α,
      (l == r) = true ↔ List.Forall₂ (fun a b => (a == b) = true) l.toList r.toList := by
  induction l with
  | nil => intro r; cases r <;> simp
  | cons a l ih =>
      intro r
      cases r with
      | nil => simp
      | cons b r =>
          rw [cons_beq_cons, Bool.and_eq_true, ih, toList_cons, toList_cons, List.forall₂_cons]

theorem beq_iff_getElem (l r : ConsList α) :
    (l == r) = true ↔
      l.length = r.length ∧
        ∀ (i : Nat) (hl : i < l.toList.length) (hr : i < r.toList.length),
          (l.toList[i] == r.toList[i]) = true := by
  rw [beq_iff_forall₂, List.forall₂_iff_get, length_eq, length_eq]
  rfl

/-- A list is equal to itself just when each of its elements is. -/
theorem beq_self_iff (l : ConsList α) : (l == l) = true ↔ ∀ a ∈ l.toList, (a == a) = true := by
  rw [beq_iff_forall₂, List.forall₂_same]

theorem singleton_beq_singleton (a b : α) : (singleton a == singleton b) = (a == b) :=
  Bool.and_true (a == b)

/-! ## §3. What lists take over from their elements. -/

/-- Lists of one element take part in everything that is so of all lists, so each law of the
elements' equality is needed as well. -/
theorem beq_refl_iff :
    (∀ l : ConsList α, (l == l) = true) ↔ ∀ a : α, (a == a) = true := by
  constructor
  · intro h a
    rw [← singleton_beq_singleton]
    exact h (singleton a)
  · intro h l
    rw [beq_self_iff]
    intro a _
    exact h a

theorem beq_symm_iff :
    (∀ l r : ConsList α, (l == r) = true → (r == l) = true)
      ↔ ∀ a b : α, (a == b) = true → (b == a) = true := by
  constructor
  · intro h a b hab
    rw [← singleton_beq_singleton] at hab ⊢
    exact h (singleton a) (singleton b) hab
  · intro h l r hlr
    rw [beq_iff_forall₂] at hlr ⊢
    exact (hlr.imp h).flip

theorem beq_trans_iff :
    (∀ l r s : ConsList α, (l == r) = true → (r == s) = true → (l == s) = true)
      ↔ ∀ a b c : α, (a == b) = true → (b == c) = true → (a == c) = true := by
  constructor
  · intro h a b c hab hbc
    rw [← singleton_beq_singleton] at hab hbc ⊢
    exact h (singleton a) (singleton b) (singleton c) hab hbc
  · intro h l r s hlr hrs
    obtain ⟨hlength, hplaces⟩ := (beq_iff_getElem l r).mp hlr
    obtain ⟨hlength', hplaces'⟩ := (beq_iff_getElem r s).mp hrs
    rw [beq_iff_getElem]
    refine ⟨hlength.trans hlength', ?_⟩
    intro i hl hs
    -- the list in the middle has an element at this place too
    have hr : i < r.toList.length := by
      rw [← length_eq, ← hlength, length_eq]
      exact hl
    exact h _ _ _ (hplaces i hl hr) (hplaces' i hr hs)

instance [LawfulBEq α] : LawfulBEq (ConsList α) where
  eq_of_beq := by
    intro l r hbeq
    have hall : List.Forall₂ (· = ·) l.toList r.toList :=
      ((beq_iff_forall₂ l r).mp hbeq).imp fun _ _ => eq_of_beq
    rw [List.forall₂_eq_eq_eq] at hall
    exact toList_injective hall
  rfl := by
    intro l
    exact beq_refl_iff.mpr (fun a => beq_self_eq_true a) l

/-! ## §4. Appended and reversed lists. -/

/-- With fronts of one length, the fronts are compared with each other and the backs as well. -/
theorem append_beq_append (l : ConsList α) :
    ∀ l' r r' : ConsList α, l.length = l'.length →
      (l.append r == l'.append r') = (l == l' && r == r') := by
  induction l with
  | nil =>
      intro l' r r' hlength
      cases l' with
      | nil => rw [nil_append, nil_append, nil_beq_nil, Bool.true_and]
      | cons b l' => exact absurd hlength (by simp)
  | cons a l ih =>
      intro l' r r' hlength
      cases l' with
      | nil => exact absurd hlength (by simp)
      | cons b l' =>
          have htail : l.length = l'.length := by simpa using hlength
          rw [cons_append, cons_append, cons_beq_cons, cons_beq_cons, ih l' r r' htail,
            Bool.and_assoc]

/-- What is compared first in one order is compared last in the other. -/
theorem reverse_beq_reverse (l r : ConsList α) : (l.reverse == r.reverse) = (l == r) := by
  rw [Bool.eq_iff_iff, beq_iff_forall₂, beq_iff_forall₂, toList_reverse, toList_reverse,
    List.forall₂_reverse_iff]

/-- **LISTS ARE EQUAL PLACE BY PLACE**, whatever the equality of their elements is.  Two cursors
that are called in turn find out; two lists are equal just when they have one length and equal
elements at every place, so a list is equal to itself just when each of its elements is.
Reflexivity, symmetry and transitivity hold of lists exactly where they hold of elements.  Behind
fronts of one length, appended lists are equal just when the fronts are and the backs are, and
reversed lists just when the lists are. -/
theorem lists_equal_place_by_place :
    (∀ l r : ConsList α, (l == r) = l.cursor.lockstep r.cursor)
    ∧ (∀ l r : ConsList α,
        (l == r) = true ↔
          l.length = r.length ∧
            ∀ (i : Nat) (hl : i < l.toList.length) (hr : i < r.toList.length),
              (l.toList[i] == r.toList[i]) = true)
    ∧ ((∀ l : ConsList α, (l == l) = true) ↔ ∀ a : α, (a == a) = true)
    ∧ ((∀ l r : ConsList α, (l == r) = true → (r == l) = true)
        ↔ ∀ a b : α, (a == b) = true → (b == a) = true)
    ∧ ((∀ l r s : ConsList α, (l == r) = true → (r == s) = true → (l == s) = true)
        ↔ ∀ a b c : α, (a == b) = true → (b == c) = true → (a == c) = true)
    ∧ (∀ l : ConsList α, (l == l) = true ↔ ∀ a ∈ l.toList, (a == a) = true)
    ∧ (∀ l l' r r' : ConsList α, l.length = l'.length →
        ((l.append r == l'.append r') = true ↔ (l == l') = true ∧ (r == r') = true))
    ∧ (∀ l r : ConsList α, (l.reverse == r.reverse) = true ↔ (l == r) = true) := by
  refine ⟨fun l r => (lockstep_eq_beq l r).symm, beq_iff_getElem, beq_refl_iff, beq_symm_iff,
    beq_trans_iff, beq_self_iff, ?_, ?_⟩
  · intro l l' r r' hlength
    rw [append_beq_append l l' r r' hlength, Bool.and_eq_true]
  · intro l r
    rw [reverse_beq_reverse]

/-- A list with a NaN differs from itself, in either order and in front of any list; what stands
before the NaN is still equal to itself, and the prefix is not equal to the whole. -/
theorem list_with_nan_differs_from_itself :
    let nan : Float := 0.0 / 0.0
    let l : ConsList Float := ofList [1.5, nan]
    let front : ConsList Float := ofList [1.5]
    (nan == nan) = false
      ∧ l.length = l.length ∧ front.length = front.length
      ∧ (l == l) = false ∧ (l.reverse == l.reverse) = false
      ∧ (∀ r r' : ConsList Float, (l.append r == l.append r') = false)
      ∧ (∀ r r' : ConsList Float, (front.append r == front.append r') = true ↔ (r == r') = true)
      ∧ (front == l) = false
      ∧ ¬ ∀ m : ConsList Float, (m == m) = true := by
  intro nan l front
  obtain ⟨-, -, refl, -, -, self, appended, reversed⟩ := lists_equal_place_by_place (α := Float)
  have hnan : (nan == nan) = false := by decide
  have hfront : (front == front) = true := by decide
  have hl : ¬ (l == l) = true := by
    rw [self]
    intro hall
    have hself : (nan == nan) = true := hall nan (by simp [l])
    exact absurd hself (by rw [hnan]; exact Bool.false_ne_true)
  refine ⟨hnan, rfl, rfl, Bool.eq_false_iff.mpr hl, ?_, ?_, ?_, by decide, ?_⟩
  · rw [Bool.eq_false_iff, Ne, reversed]
    exact hl
  · intro r r'
    rw [Bool.eq_false_iff, Ne, appended l l r r' rfl]
    exact fun h => hl h.1
  · intro r r'
    rw [appended front front r r' rfl]
    exact ⟨fun h => h.2, fun h => ⟨hfront, h⟩⟩
  · rw [refl]
    intro hall
    exact hl ((self l).mpr fun a _ => hall a)

/-- The fronts must have one length: an element may stand at the end of one front and at the
beginning of the other back. -/
example : (((ofList [1, 2]).append (ofList [3])) == (ofList [1]).append (ofList [2, 3])) = true
    ∧ (ofList [1, 2] == ofList [1]) = false := by decide

end Stepwise.ConsList
