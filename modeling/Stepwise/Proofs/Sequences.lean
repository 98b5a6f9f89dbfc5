/-
  Stepwise.Proofs.Sequences
  ────────────────────────────────────────────────────────────────────────────
  **ONE SEQUENCE BEHIND EVERY WAY OF READING A LIST.**

  A list comes from a sequence, from an array or from `cons`, and it is read as
  an array, by a fold, by heads and tails, by a cursor, as a stream, or by taking
  it apart: `ReadsAs l s`.
-/
import Stepwise.ConsList.Cursor

namespace Stepwise.ConsList

universe u v

variable {α : Type u} {σ : Type v}

/-! ## §1. Calls of a reader. -/

/-- The elements of `s` in order as the answers of `k` calls: the calls beyond the end have no
element for an answer. -/
def answers (s : List α) (k : Nat) : List (Option α) :=
  (s.take k).map some ++ List.replicate (k - s.length) none

theorem answers_zero (s : List α) : answers s 0 = [] := by simp [answers]

theorem answers_succ (s : List α) (k : Nat) :
    answers s (k + 1) = s.head? :: answers s.tail k := by
  cases s with
  | nil => simp [answers, List.replicate_succ]
  | cons a s => simp [answers]

/-- **The answers of a reader are the elements to come**, whatever the number of calls. -/
theorem Reads.callsOnto_eq {next : σ → Option α × σ} {rest : σ → List α} (h : Reads next rest)
    (k : Nat) :
    ∀ (seen : Array (Option α)) (s : σ),
      (callsOnto next seen k s).1 = seen ++ (answers (rest s) k).toArray
      ∧ rest (callsOnto next seen k s).2 = (rest s).drop k := by
  induction k with
  | zero => intro seen s; simp [callsOnto, answers_zero]
  | succ k ih =>
      intro seen s
      -- the first call, and the others from the state that it leads to
      obtain ⟨hanswers, hrest⟩ := ih (seen.push (next s).1) (next s).2
      constructor
      · show (callsOnto next (seen.push (next s).1) k (next s).2).1 = _
        rw [hanswers, h.answer, h.leave, answers_succ]
        exact Array.ext' (by simp)
      · show rest (callsOnto next (seen.push (next s).1) k (next s).2).2 = _
        rw [hrest, h.leave, List.drop_tail]

/-- Where the elements to come determine the state, they determine where the calls lead to. -/
theorem Reads.callsOnto_empty {next : σ → Option α × σ} {rest : σ → List α} (h : Reads next rest)
    (make : List α → σ) (hmake : ∀ s, make (rest s) = s) (k : Nat) (s : σ) :
    callsOnto next #[] k s = ((answers (rest s) k).toArray, make ((rest s).drop k)) := by
  obtain ⟨hanswers, hrest⟩ := h.callsOnto_eq k #[] s
  refine Prod.ext ?_ ?_
  · rw [hanswers, Array.empty_append]
  · rw [← hrest, hmake]

/-! ## §2. The readers of a list. -/

/-- The head and the tail, by the two operations of a list. -/
def headAndTail (l : ConsList α) : Option α × ConsList α := (l.head?, l.tail)

/-- A call on a stream; a stream that has ended stays where it is. -/
def streamCall (c : Cursor α) : Option α × Cursor α :=
  match Std.Stream.next? c with
  | none => (none, c)
  | some (a, c) => (some a, c)

theorem reads_headAndTail : Reads (headAndTail (α := α)) toList :=
  ⟨head?_eq, toList_tail⟩

theorem streamCall_eq_next (c : Cursor α) : streamCall c = c.next := by
  obtain ⟨l⟩ := c
  cases l with
  | nil => rfl
  | cons a l => rfl

theorem reads_streamCall : Reads (streamCall (α := α)) fun c => c.rest.toList := by
  have heq : (streamCall : Cursor α → _) = Cursor.next := funext streamCall_eq_next
  rw [heq]
  exact reads_next

/-! ## §3. All ways of reading at once. -/

/-- The list is read as the sequence `s`, in whatever way it is read. -/
structure ReadsAs (l : ConsList α) (s : List α) : Prop where
  /-- As an array. -/
  array : l.toArray = s.toArray
  /-- By a fold that pushes each element. -/
  pushed : ∀ seen : Array α, l.foldLeft (fun a seen => seen.push a) seen = seen ++ s.toArray
  /-- By counting. -/
  count : l.length = s.length
  /-- By popping until nothing is left. -/
  drained : l.drain = s.toArray
  /-- By heads and tails. -/
  heads : ∀ k, callsOnto headAndTail #[] k l = ((answers s k).toArray, ofList (s.drop k))
  /-- By calls on a cursor. -/
  pulled : ∀ k, l.cursor.pull k = ((answers s k).toArray, (ofList (s.drop k)).cursor)
  /-- By calls on a stream. -/
  streamed : ∀ k, callsOnto streamCall #[] k (Std.toStream l)
    = ((answers s k).toArray, (ofList (s.drop k)).cursor)
  /-- By calls that take the list apart. -/
  popped : ∀ k, l.popMany k = ((answers s k).toArray, ofList (s.drop k))

/-- A cursor is before what it has not read yet. -/
theorem cursor_ofList_rest (c : Cursor α) : (ofList c.rest.toList).cursor = c := by
  rw [ofList_toList]
  rfl

theorem foldLeft_push (l : ConsList α) :
    ∀ seen : Array α, l.foldLeft (fun a seen => seen.push a) seen = seen ++ l.toList.toArray := by
  induction l with
  | nil => intro seen; simp
  | cons a l ih =>
      intro seen
      rw [foldLeft_cons, ih]
      exact Array.ext' (by simp)

theorem readsAs_toList (l : ConsList α) : l.ReadsAs l.toList where
  array := toArray_eq l
  pushed := foldLeft_push l
  count := length_eq l
  drained := drain_eq l
  heads k := reads_headAndTail.callsOnto_empty ofList ofList_toList k l
  pulled k := reads_next.callsOnto_empty (cursor ∘ ofList) cursor_ofList_rest k l.cursor
  streamed k := reads_streamCall.callsOnto_empty (cursor ∘ ofList) cursor_ofList_rest k l.cursor
  popped k := reads_pop.callsOnto_empty ofList ofList_toList k l

/-- Reading determines the list. -/
theorem readsAs_iff (l : ConsList α) (s : List α) : l.ReadsAs s ↔ l.toList = s := by
  constructor
  · intro h
    have harray : l.toList.toArray = s.toArray := by rw [← toArray_eq, h.array]
    simpa using harray
  · intro h
    rw [← h]
    exact readsAs_toList l

theorem ofArray_toArray (l : ConsList α) : ofArray l.toArray = l :=
  toList_injective (by rw [toList_ofArray, toArray_eq])

theorem copy_eq (l : ConsList α) : l.copy = l := toList_injective (toList_copy l)

/-- **ALL CONSTRUCTORS AND ALL OBSERVERS AGREE ON ONE SEQUENCE**: the list of a sequence, the list
of its array and the list that its elements make when they are put in front of nothing from the
last one on are read as this sequence, in every way and by any number of calls, and no other list
is.  Every list is read as some sequence; made anew from its array, or from what popping gives, it
is the same list. -/
theorem constructors_and_observers_agree :
    (∀ s : List α,
      (ofList s).ReadsAs s ∧ (ofArray s.toArray).ReadsAs s ∧ (s.foldr cons nil).ReadsAs s
      ∧ ∀ l : ConsList α, l.ReadsAs s ↔ l = ofList s)
    ∧ (∀ l : ConsList α,
        l.ReadsAs l.toList ∧ ofArray l.toArray = l ∧ ofList l.toArray.toList = l ∧ l.copy = l) := by
  refine ⟨?_, ?_⟩
  · intro s
    have hfoldr : (s.foldr cons nil).toList = s := by
      rw [toList_foldr_cons, toList_nil, List.append_nil]
    refine ⟨(readsAs_iff _ s).mpr (toList_ofList s), (readsAs_iff _ s).mpr (toList_ofList s),
      (readsAs_iff _ s).mpr hfoldr, ?_⟩
    intro l
    rw [readsAs_iff]
    constructor
    · intro h
      rw [← h, ofList_toList]
    · intro h
      rw [h, toList_ofList]
  · intro l
    exact ⟨readsAs_toList l, ofArray_toArray l, ofArray_toArray l, copy_eq l⟩

/-- A list that is taken apart goes on answering when nothing is left. -/
example : ((ofList [1, 2]).popMany 4).1 = #[some 1, some 2, none, none] := by decide

end Stepwise.ConsList
