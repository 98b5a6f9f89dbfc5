/-
  Stepwise.Event
  ────────────────────────────────────────────────────────────────────────────
  **WHAT AN OBSERVER OF A COMPUTATION SEES BESIDES ITS VALUE.**

  The end of a drive and the overflow of a factorial are worth a line in a log.
  The steps of a drive are counted without bound: a 64-bit counter shows the
  same number as long as there are fewer than 2^64 of them.
-/

namespace Stepwise

universe u v

/-! ## §1. Events. -/

/-- An event of the log. -/
inductive Event where
  /-- A driver reached a value after calling `steps` pending steps. -/
  | finished (steps : Nat)
  /-- The product of `operand` and `product` does not fit in 64 bits. -/
  | overflowed (operand product : UInt64)
deriving DecidableEq

/-- The line that an event leaves in the log: its level, its message and its fields. -/
def Event.text : Event → String
  | .finished steps => "TRACE trampoline finished steps=" ++ toString steps
  | .overflowed operand product =>
    "DEBUG factorial overflowed u64 operand=" ++ toString operand.toNat ++
      " product=" ++ toString product.toNat

/-! ## §2. Values with their events. -/

/-- A value and the events met on the way to it, oldest first. -/
structure Traced (α : Type u) where
  /-- The value itself. -/
  value : α
  /-- The events met on the way, oldest first. -/
  events : List Event

namespace Traced

/-- A value that was reached without any event. -/
def silent {α : Type u} (value : α) : Traced α := ⟨value, []⟩

@[simp] theorem value_silent {α : Type u} (a : α) : (silent a).value = a := rfl

@[simp] theorem events_silent {α : Type u} (a : α) : (silent a).events = [] := rfl

/-- The same events on the way to another value. -/
def map {α : Type u} {β : Type v} (f : α → β) (t : Traced α) : Traced β := ⟨f t.value, t.events⟩

@[simp] theorem value_map {α : Type u} {β : Type v} (f : α → β) (t : Traced α) :
    (t.map f).value = f t.value := rfl

@[simp] theorem events_map {α : Type u} {β : Type v} (f : α → β) (t : Traced α) :
    (t.map f).events = t.events := rfl

end Traced

end Stepwise
