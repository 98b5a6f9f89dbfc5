/-
  Stepwise.Proofs.ListDrives
  ────────────────────────────────────────────────────────────────────────────
  **WHAT APPEND AND REVERSE DRIVE, AND WHAT THEIR LOGS SAY.**

  Both run their continuation from the last element back.  So the step lemma is
  about the last element, and the run lemma about any number of last elements.
-/
import Stepwise.Proofs.Folding

namespace Stepwise

universe u

/-! ## §1. Steps with a drive in each of them. -/

namespace Delay

variable {α : Type u}

/-- `n` pending steps, each of them followed by the event of a drive, and then `d`.  The first
drive calls `m` steps, each later one a step more than the one before it. -/
def afterDrives : Nat → Nat → Delay α → Delay α
  | _, 0, d => d
  | m, n + 1, d => later fun _ => emit (.finished m) (afterDrives (m + 1) n d)

theorem steps_afterDrives (n : Nat) (d : Delay α) :
    ∀ m, (afterDrives m n d).steps = n + d.steps := by
  induction n with
  | zero => intro m; exact (Nat.zero_add _).symm
  | succ n ih =>
      intro m
      show (afterDrives (m + 1) n d).steps + 1 = _
      rw [ih, Nat.add_right_comm]

theorem events_afterDrives (n : Nat) (d : Delay α) :
    ∀ m, (afterDrives m n d).events = (List.range' m n).map .finished ++ d.events := by
  induction n with
  | zero => intro m; rfl
  | succ n ih =>
      intro m
      show .finished m :: (afterDrives (m + 1) n d).events = _
      rw [ih, List.range'_succ, List.map_cons, List.cons_append]

end Delay

namespace ConsList

variable {α : Type u}

/-! ## §2. Lists from their last element on. -/

@[simp] theorem length_append (l r : ConsList α) : (l.append r).length = l.length + r.length := by
  rw [length_eq, length_eq, length_eq, toList_append, List.length_append]

@[simp] theorem length_singleton (a : α) : (singleton a).length = 1 := rfl

theorem append_assoc (l r s : ConsList α) : (l.append r).append s = l.append (r.append s) :=
  toList_injective (by simp)

@[simp] theorem reverse_reverse (l : ConsList α) : l.reverse.reverse = l :=
  toList_injective (by simp)

theorem reverse_append (l r : ConsList α) :
    (l.append r).reverse = r.reverse.append l.reverse :=
  toList_injective (by simp)

theorem reverse_concat (l : ConsList α) (a : α) :
    (l.append (singleton a)).reverse = cons a l.reverse :=
  toList_injective (by simp)

/-- Induction that adds the last element and not the head. -/
@[elab_as_elim]
theorem concatInduction {motive : ConsList α → Prop} (nil : motive nil)
    (concat : ∀ (l : ConsList α) (a : α), motive l → motive (l.append (singleton a)))
    (l : ConsList α) : motive l := by
  have hreverse : ∀ r : ConsList α, motive r.reverse := by
    intro r
    induction r with
    | nil => rw [reverse_nil]; exact nil
    | cons a r ih => rw [reverse_cons]; exact concat _ a ih
  rw [← reverse_reverse l]
  exact hreverse l.reverse

/-! ## §3. Append. -/

/-- **The back goes first**: each of its elements takes one step, and when it stands in front of
what follows, the front is still to come. -/
theorem before_append (l m r : ConsList α) :
    (l.append m).before r = .after m.length (l.before (m.append r)) := by
  rw [before, foldLeft_append, foldLeft_before, append_eq]
  rfl

theorem before_eq_after (l r : ConsList α) :
    l.before r = .after l.length (.now (l.append r)) := by
  rw [before_eq, append_eq]

@[simp] theorem value_appendTraced (l r : ConsList α) : (l.appendTraced r).value = l.append r :=
  rfl

@[simp] theorem events_appendTraced (l r : ConsList α) :
    (l.appendTraced r).events = [.finished l.length] := by
  rw [appendTraced, before_eq_after, Delay.drive_after_now]

theorem appendTraced_eq (l r : ConsList α) :
    l.appendTraced r = ⟨l.append r, [.finished l.length]⟩ := by
  rw [← events_appendTraced l r]
  rfl

/-- **APPENDING IS ONE DRIVE, AS LONG AS THE FRONT**, whatever the length of the back.  What comes
out has the elements of the front and then those of the back, each once and in order; so the empty
list is neutral on both sides, and it does not matter how three lists are bracketed.  On the way,
when the last elements of the front have taken a step each, they stand in front of what follows,
and those before them are still to come. -/
theorem append_is_one_drive_over_the_front (l r : ConsList α) :
    (l.append r).toList = l.toList ++ r.toList
    ∧ l.appendTraced r = ⟨ofList (l.toList ++ r.toList), [.finished l.length]⟩
    ∧ l.before r = .after l.length (.now (l.append r))
    ∧ (nil.append l = l ∧ l.append nil = l)
    ∧ (∀ s, (l.append r).append s = l.append (r.append s))
    ∧ (∀ s, (l.append r).before s = .after r.length (l.before (r.append s))) := by
  refine ⟨toList_append l r, ?_, before_eq_after l r, ⟨nil_append l, append_nil l⟩,
    append_assoc l r, before_append l r⟩
  rw [appendTraced_eq, ← toList_append, ofList_toList]

/-! ## §4. Reverse. -/

/-- **A step of reverse is an append**: the last element goes behind what is reversed already. -/
theorem behind_concat (l r : ConsList α) (a : α) :
    (l.append (singleton a)).behind r = .later fun _ =>
      .replay (r.appendTraced (singleton a)).events
        (l.behind (r.appendTraced (singleton a)).value) := by
  rw [behind, foldLeft_append]
  rfl

/-- Any number of last elements goes behind what is reversed already, with a drive for each, and
the drives grow with it. -/
theorem behind_append (l m : ConsList α) :
    ∀ r : ConsList α,
      (l.append m).behind r
        = .afterDrives r.length m.length (l.behind (r.append m.reverse)) := by
  induction m using concatInduction with
  | nil => intro r; rw [append_nil, reverse_nil, append_nil]; rfl
  | concat m a ih =>
      intro r
      -- the last element takes the first step, from `r` to a list that is one element longer
      have hlength : (r.append (singleton a)).length = r.length + 1 := by
        rw [length_append, length_singleton]
      rw [← append_assoc, behind_concat, events_appendTraced, value_appendTraced, ih, hlength,
        length_append, length_singleton, reverse_concat, append_singleton_append]
      rfl

theorem behind_nil_eq (l : ConsList α) :
    l.behind nil = .afterDrives 0 l.length (.now l.reverse) := by
  have hall := behind_append nil l nil
  rwa [nil_append, nil_append] at hall

theorem events_reverseTraced (l : ConsList α) :
    l.reverseTraced.events = (List.range l.length).map .finished ++ [.finished l.length] := by
  rw [reverseTraced, Delay.events_drive, behind_nil_eq, Delay.events_afterDrives,
    Delay.steps_afterDrives, Delay.events_now, Delay.steps_now, List.append_nil,
    List.range_eq_range', Nat.add_zero]

theorem reverseTraced_eq (l : ConsList α) :
    l.reverseTraced
      = ⟨l.reverse, (List.range l.length).map .finished ++ [.finished l.length]⟩ := by
  rw [← events_reverseTraced l]
  rfl

/-- **REVERSING LOGS APPENDS THAT GROW BY ONE, AND THEN ITSELF**: for a list of `n` elements the
drives of the inner appends call 0, 1, …, `n - 1` steps, the last drive calls `n`, and there are no
others; what comes out has the elements in opposite order.  A step drives one append, which puts
the last element of the list behind what is reversed already, and after any number of steps it is
the end of the list that is reversed.  So reversing twice gives the list again, and an appended
list is reversed part by part. -/
theorem reverse_logs_growing_appends (l : ConsList α) :
    l.reverse.toList = l.toList.reverse
    ∧ l.reverseTraced
        = ⟨ofList l.toList.reverse,
            (List.range l.length).map .finished ++ [.finished l.length]⟩
    ∧ (∀ (a : α) (reversed : ConsList α),
        let inner := reversed.appendTraced (singleton a)
        inner.events = [.finished reversed.length]
        ∧ (l.append (singleton a)).behind reversed
            = .later fun _ => .replay inner.events (l.behind inner.value))
    ∧ (∀ m : ConsList α,
        (l.append m).behind nil = .afterDrives 0 m.length (l.behind m.reverse))
    ∧ l.reverse.reverse = l
    ∧ (∀ r : ConsList α, (l.append r).reverse = r.reverse.append l.reverse) := by
  refine ⟨toList_reverse l, ?_, ?_, ?_, reverse_reverse l, reverse_append l⟩
  · rw [reverseTraced_eq, ← toList_reverse, ofList_toList]
  · intro a reversed
    exact ⟨events_appendTraced reversed (singleton a), behind_concat l reversed a⟩
  · intro m
    have hend := behind_append l m nil
    rwa [nil_append] at hend

/-- Three elements: three appends, and the drive around them. -/
example : (ofList [7, 8, 9]).reverseTraced.events
    = [.finished 0, .finished 1, .finished 2, .finished 3] := by decide

end ConsList

end Stepwise
