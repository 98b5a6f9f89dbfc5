/-
  Stepwise.ConsList.Basic
  ────────────────────────────────────────────────────────────────────────────
  **IMMUTABLE LISTS OF CELLS.**

  Whatever visits all cells is a `foldLeft`, a loop that uses no stack.  All
  operations are described through the view `toList`.
-/

namespace Stepwise

universe u v

/-! ## §1. Lists. -/

/-- A list of cells, each with its head and the list behind it. -/
inductive ConsList (α : Type u) where
  /-- The empty list. -/
  | nil
  /-- A cell: `head` in front of `tail`. -/
  | cons (head : α) (tail : ConsList α)

namespace ConsList

variable {α : Type u} {β : Type v}

instance : EmptyCollection (ConsList α) := ⟨nil⟩

instance : Inhabited (ConsList α) := ⟨nil⟩

/-- The list of one element. -/
def singleton (a : α) : ConsList α := cons a nil

/-- The list `l` behind the new head `a`. -/
def prepend (l : ConsList α) (a : α) : ConsList α := cons a l

/-- The first element. -/
def head? : ConsList α → Option α
  | nil => none
  | cons a _ => some a

/-- The list behind the first element; nothing is behind the empty list. -/
def tail : ConsList α → ConsList α
  | nil => nil
  | cons _ l => l

/-- Whether there is no cell. -/
def isEmpty : ConsList α → Bool
  | nil => true
  | cons _ _ => false

/-! ## §2. The fold, and what it reads off. -/

/-- Takes an accumulator through the list, from the head on. -/
def foldLeft (f : α → β → β) (acc : β) : ConsList α → β
  | nil => acc
  | cons a l => foldLeft f (f a acc) l

/-- The number of cells. -/
def length (l : ConsList α) : Nat := l.foldLeft (fun _ n => n + 1) 0

/-- The elements in order. -/
def toList (l : ConsList α) : List α := (l.foldLeft List.cons []).reverse

/-- The last element. -/
def last? (l : ConsList α) : Option α := l.foldLeft (fun a _ => some a) none

/-! ## §3. Lists from sequences. -/

/-- The list of the given elements, built from the last one on. -/
def ofArray (elements : Array α) : ConsList α := elements.foldr cons nil

/-- The list of the given elements. -/
def ofList (elements : List α) : ConsList α := ofArray elements.toArray

/-! ## §4. Equality. -/

/-- Compares in lockstep; both lists must end together. -/
def beq [BEq α] : ConsList α → ConsList α → Bool
  | nil, nil => true
  | cons a l, cons b r => a == b && beq l r
  | _, _ => false

instance [BEq α] : BEq (ConsList α) := ⟨beq⟩

@[simp] theorem nil_beq_nil [BEq α] : ((nil : ConsList α) == nil) = true := rfl

@[simp] theorem cons_beq_nil [BEq α] (a : α) (l : ConsList α) : (cons a l == nil) = false := rfl

@[simp] theorem nil_beq_cons [BEq α] (b : α) (r : ConsList α) : (nil == cons b r) = false := rfl

@[simp] theorem cons_beq_cons [BEq α] (a b : α) (l r : ConsList α) :
    (cons a l == cons b r) = (a == b && l == r) := rfl

/-! ## §5. The view. -/

@[simp] theorem foldLeft_nil (f : α → β → β) (acc : β) : foldLeft f acc nil = acc := rfl

@[simp] theorem foldLeft_cons (f : α → β → β) (acc : β) (a : α) (l : ConsList α) :
    foldLeft f acc (cons a l) = foldLeft f (f a acc) l := rfl

theorem foldLeft_listCons (l : ConsList α) (acc : List α) :
    l.foldLeft List.cons acc = l.foldLeft List.cons [] ++ acc := by
  induction l generalizing acc with
  | nil => rfl
  | cons a l ih => rw [foldLeft_cons, ih, foldLeft_cons, ih [a], List.append_assoc]; rfl

@[simp] theorem toList_nil : (nil : ConsList α).toList = [] := rfl

@[simp] theorem toList_cons (a : α) (l : ConsList α) : (cons a l).toList = a :: l.toList := by
  rw [toList, foldLeft_cons, foldLeft_listCons, toList, List.reverse_append]
  rfl

theorem foldLeft_eq_foldl (f : α → β → β) (acc : β) (l : ConsList α) :
    l.foldLeft f acc = l.toList.foldl (fun acc a => f a acc) acc := by
  induction l generalizing acc with
  | nil => rfl
  | cons a l ih => simp [ih]

/-- Elements put in front of a list one by one, from the last one on. -/
theorem toList_foldr_cons (s : List α) (l : ConsList α) :
    (s.foldr cons l).toList = s ++ l.toList := by
  induction s with
  | nil => rfl
  | cons a s ih => simp [ih]

theorem toList_injective {l r : ConsList α} (h : l.toList = r.toList) : l = r := by
  induction l generalizing r with
  | nil => cases r with
    | nil => rfl
    | cons b r => simp at h
  | cons a l ih => cases r with
    | nil => simp at h
    | cons b r =>
      simp only [toList_cons, List.cons.injEq] at h
      rw [h.1, ih h.2]

@[simp] theorem toList_singleton (a : α) : (singleton a).toList = [a] := by
  simp [singleton]

@[simp] theorem toList_prepend (l : ConsList α) (a : α) :
    (l.prepend a).toList = a :: l.toList := by
  simp [prepend]

theorem head?_eq (l : ConsList α) : l.head? = l.toList.head? := by
  cases l <;> simp [head?]

@[simp] theorem toList_tail (l : ConsList α) : l.tail.toList = l.toList.tail := by
  cases l <;> simp [tail]

theorem isEmpty_eq (l : ConsList α) : l.isEmpty = l.toList.isEmpty := by
  cases l <;> simp [isEmpty]

theorem length_eq (l : ConsList α) : l.length = l.toList.length := by
  have count : ∀ (s : List α) (n : Nat), s.foldl (fun n _ => n + 1) n = n + s.length := by
    intro s
    induction s with
    | nil => simp
    | cons a s ih => intro n; simp [ih, Nat.add_assoc, Nat.add_comm 1]
  rw [length, foldLeft_eq_foldl, count, Nat.zero_add]

@[simp] theorem length_nil : (nil : ConsList α).length = 0 := rfl

@[simp] theorem length_cons (a : α) (l : ConsList α) : (cons a l).length = l.length + 1 := by
  simp [length_eq]

@[simp] theorem toList_ofArray (s : Array α) : (ofArray s).toList = s.toList := by
  rw [ofArray, ← Array.foldr_toList, toList_foldr_cons]
  simp

@[simp] theorem toList_ofList (s : List α) : (ofList s).toList = s := by
  simp [ofList]

@[simp] theorem ofList_toList (l : ConsList α) : ofList l.toList = l :=
  toList_injective (toList_ofList _)

theorem last?_eq (l : ConsList α) : l.last? = l.toList.getLast? := by
  rw [last?, foldLeft_eq_foldl]
  have h : ∀ (s : List α) (o : Option α), s.foldl (fun _ a => some a) o = s.getLast?.or o := by
    intro s
    induction s with
    | nil => simp
    | cons a s ih => intro o; cases s <;> simp_all [List.getLast?_cons]
  simp [h]

end ConsList

end Stepwise
