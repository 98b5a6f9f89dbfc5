/-
  Stepwise.ConsList.Cursor
  ────────────────────────────────────────────────────────────────────────────
  **READING A LIST ONE ELEMENT AT A TIME.**

  A reader is called for one element after the other.  A `Cursor` leaves the
  list alone, `pop` takes it apart; at the end both go on answering that there
  is no element.
-/
import Stepwise.ConsList.Basic

namespace Stepwise.ConsList

universe u v

variable {α : Type u} {σ : Type v}

/-! ## §1. Readers. -/

/-- The law of a reader, in terms of the elements that are still to come at a state. -/
structure Reads (next : σ → Option α × σ) (rest : σ → List α) : Prop where
  /-- A call answers the first of the elements to come, if there is one. -/
  answer : ∀ s, (next s).1 = (rest s).head?
  /-- The others are still to come after it; at the end it stays so. -/
  leave : ∀ s, rest (next s).2 = (rest s).tail

/-- The answers of `k` calls of `next` from the state `s` on, behind those in `seen`, and the state
that they lead to. -/
def callsOnto (next : σ → Option α × σ) (seen : Array (Option α)) :
    Nat → σ → Array (Option α) × σ
  | 0, s => (seen, s)
  | k + 1, s => callsOnto next (seen.push (next s).1) k (next s).2

namespace Reads

variable {next : σ → Option α × σ} {rest : σ → List α}

theorem rest_eq_nil (h : Reads next rest) {s t : σ} (e : next s = (none, t)) : rest s = [] := by
  have hanswer := h.answer s
  rw [e] at hanswer
  exact List.head?_eq_none_iff.mp hanswer.symm

theorem rest_eq_cons (h : Reads next rest) {s t : σ} {a : α} (e : next s = (some a, t)) :
    rest s = a :: rest t := by
  have hanswer := h.answer s
  have hleave := h.leave s
  rw [e] at hanswer hleave
  obtain ⟨l, hl⟩ := List.head?_eq_some_iff.mp hanswer.symm
  rw [hleave, hl, List.tail_cons]

/-- Calls a reader until it has no element for an answer, and puts the elements behind those in
`seen`. -/
def collectOnto (h : Reads next rest) (seen : Array α) (s : σ) : Array α :=
  match _e : next s with
  | (none, _) => seen
  | (some a, t) => h.collectOnto (seen.push a) t
termination_by (rest s).length
decreasing_by
  rw [h.rest_eq_cons _e]
  exact Nat.lt_succ_self _

/-- What is collected are the elements that were still to come. -/
theorem collectOnto_eq (h : Reads next rest) (seen : Array α) (s : σ) :
    h.collectOnto seen s = seen ++ (rest s).toArray := by
  fun_induction collectOnto h seen s with
  | case1 seen s t e => rw [h.rest_eq_nil e, Array.append_empty]
  | case2 seen s a t e ih =>
    rw [ih, h.rest_eq_cons e]
    exact Array.ext' (by simp)

end Reads

/-! ## §2. Cursors. -/

/-- A place in a list: `rest` has not been read yet. -/
structure Cursor (α : Type u) where
  /-- What has not been read yet. -/
  rest : ConsList α

/-- A cursor before the first element. -/
def cursor (l : ConsList α) : Cursor α := ⟨l⟩

/-- The element at the cursor, if there is one, and the place behind it. -/
def Cursor.next (c : Cursor α) : Option α × Cursor α :=
  match c.rest with
  | nil => (none, c)
  | cons a l => (some a, ⟨l⟩)

/-- The answers of `n` calls of `next`, and the place that they lead to. -/
def Cursor.pull (n : Nat) (c : Cursor α) : Array (Option α) × Cursor α := callsOnto next #[] n c

theorem reads_next : Reads (Cursor.next (α := α)) fun c => c.rest.toList where
  answer := by rintro ⟨_ | _⟩ <;> simp [Cursor.next]
  leave := by rintro ⟨_ | _⟩ <;> simp [Cursor.next]

/-- The elements in order, as a cursor gives them. -/
def toArray (l : ConsList α) : Array α := reads_next.collectOnto #[] l.cursor

theorem toArray_eq (l : ConsList α) : l.toArray = l.toList.toArray := by
  rw [toArray, Reads.collectOnto_eq, Array.empty_append]
  rfl

instance : Std.ToStream (ConsList α) (Cursor α) := ⟨cursor⟩

instance : Std.Stream (Cursor α) α where
  next? c :=
    match c.next with
    | (none, _) => none
    | (some a, c) => some (a, c)

/-! ## §3. Taking a list apart. -/

/-- The head, if there is one, and the list without it. -/
def pop : ConsList α → Option α × ConsList α
  | nil => (none, nil)
  | cons a l => (some a, l)

/-- The answers of `n` calls of `pop`, and the list that they leave. -/
def popMany (n : Nat) (l : ConsList α) : Array (Option α) × ConsList α := callsOnto pop #[] n l

theorem reads_pop : Reads (pop (α := α)) toList where
  answer := by rintro (_ | _) <;> simp [pop]
  leave := by rintro (_ | _) <;> simp [pop]

/-- The elements of a list in the order in which `pop` gives them. -/
def drain (l : ConsList α) : Array α := reads_pop.collectOnto #[] l

/-- A list of the same elements in cells of its own. -/
def copy (l : ConsList α) : ConsList α := ofArray l.drain

theorem drain_eq (l : ConsList α) : l.drain = l.toList.toArray := by
  rw [drain, Reads.collectOnto_eq, Array.empty_append]

@[simp] theorem toList_copy (l : ConsList α) : l.copy.toList = l.toList := by
  simp [copy, drain_eq]

end Stepwise.ConsList
