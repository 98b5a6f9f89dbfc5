/-
  Stepwise.ConsList.Append
  ────────────────────────────────────────────────────────────────────────────
  **APPENDING AND REVERSING BY COMPOSED CONTINUATIONS.**

  Both fold a continuation over the list, one step per element, and drive it at
  the end.  A step of `reverse` is an `append`, so it holds a drive of its own.
-/
import Stepwise.Delay.Lemmas
import Stepwise.ConsList.Basic

namespace Stepwise.ConsList

universe u

variable {α : Type u}

/-! ## §1. Append. -/

/-- The elements of the list put in front of what is handed in, from the last one on, each in a
step of its own. -/
def before (l : ConsList α) : ConsList α → Delay (ConsList α) :=
  l.foldLeft (fun a outer rest => .later fun _ => outer (cons a rest)) .now

/-- The elements of `l`, then those of `r`, and the drive that this took. -/
def appendTraced (l r : ConsList α) : Traced (ConsList α) := (l.before r).drive

/-- The elements of `l`, then those of `r`. -/
def append (l r : ConsList α) : ConsList α := (l.appendTraced r).value

instance : Append (ConsList α) := ⟨append⟩

/-! ## §2. Reverse. -/

/-- The elements of the list appended to what is handed in, from the last one on, each in a step
of its own. -/
def behind (l : ConsList α) : ConsList α → Delay (ConsList α) :=
  l.foldLeft
    (fun a outer reversed => .later fun _ =>
      let longer := reversed.appendTraced (singleton a)
      .replay longer.events (outer longer.value))
    .now

/-- The elements in opposite order, and the drives that this took. -/
def reverseTraced (l : ConsList α) : Traced (ConsList α) := (l.behind nil).drive

/-- The elements in opposite order. -/
def reverse (l : ConsList α) : ConsList α := l.reverseTraced.value

/-! ## §3. The elements that come out. -/

theorem foldLeft_before (l : ConsList α) (k : ConsList α → Delay (ConsList α)) (r : ConsList α) :
    l.foldLeft (fun a outer rest => .later fun _ => outer (cons a rest)) k r =
      .after l.length (k (l.toList.foldr cons r)) := by
  induction l generalizing k with
  | nil => rfl
  | cons a l ih =>
    rw [foldLeft_cons, ih, length_cons, toList_cons, List.foldr_cons,
      Delay.after_succ_eq_after_later]

/-- Appending is one step per element of the list in front, and then the result. -/
theorem before_eq (l r : ConsList α) :
    l.before r = .after l.length (.now (l.toList.foldr cons r)) :=
  foldLeft_before l .now r

theorem append_eq (l r : ConsList α) : l.append r = l.toList.foldr cons r := by
  simp [append, appendTraced, before_eq]

@[simp] theorem toList_append (l r : ConsList α) : (l.append r).toList = l.toList ++ r.toList := by
  rw [append_eq, toList_foldr_cons]

theorem value_foldLeft_behind (l : ConsList α) (k : ConsList α → Delay (ConsList α))
    (reversed : ConsList α) :
    (l.foldLeft
        (fun a outer reversed => .later fun _ =>
          let longer := reversed.appendTraced (singleton a)
          .replay longer.events (outer longer.value))
        k reversed).value =
      (k (ofList (reversed.toList ++ l.toList.reverse))).value := by
  induction l generalizing k with
  | nil => simp
  | cons a l ih =>
    -- The elements behind `a` come first, and `a` is appended to what they give.
    have last : (ofList (reversed.toList ++ l.toList.reverse)).append (singleton a) =
        ofList (reversed.toList ++ (cons a l).toList.reverse) := by
      apply toList_injective
      rw [toList_append]
      simp
    rw [append] at last
    rw [foldLeft_cons, ih, Delay.value_later, Delay.value_replay, last]

@[simp] theorem toList_reverse (l : ConsList α) : l.reverse.toList = l.toList.reverse := by
  have h := value_foldLeft_behind l .now nil
  rw [reverse, reverseTraced, Delay.value_drive, behind, h]
  simp

end Stepwise.ConsList
