/-
  Stepwise.Delay.Basic
  ────────────────────────────────────────────────────────────────────────────
  **COMPUTATIONS THAT ARE DRIVEN ONE STEP AT A TIME.**

  A recursion that returns a delay instead of calling itself needs no native
  stack: `drive` calls one step after the other.  Being inductive, the type
  holds the computations that do finish, and no others.  The driver counts its
  steps without bound; a 64-bit counter agrees with it below 2^64.
-/
import Stepwise.Event
import Stepwise.Text.Form
import Stepwise.Text.Layout

namespace Stepwise

universe u

/-! ## §1. Delayed computations. -/

/-- A computation of an `α` that is finished or waits for its next step to be called. -/
inductive Delay (α : Type u) where
  /-- The computation is finished. -/
  | now (value : α)
  /-- A pending step: calling it gives the rest of the computation. -/
  | later (next : Unit → Delay α)
  /-- An event that happened while the rest was made.  It is no step: the driver writes it
  down and goes on. -/
  | emit (event : Event) (rest : Delay α)

namespace Delay

variable {α : Type u}

instance [Inhabited α] : Inhabited (Delay α) := ⟨now default⟩

/-! ## §2. What a delay comes to: its value, its steps, its events. -/

/-- The value at the end of a delay. -/
def value : Delay α → α
  | now a => a
  | later next => (next ()).value
  | emit _ rest => rest.value

/-- How many pending steps lie before the value. -/
def steps : Delay α → Nat
  | now _ => 0
  | later next => (next ()).steps + 1
  | emit _ rest => rest.steps

/-- The events before the value, oldest first. -/
def events : Delay α → List Event
  | now _ => []
  | later next => (next ()).events
  | emit e rest => e :: rest.events

/-! ## §3. Building delays. -/

/-- The given events, then `d`. -/
def replay (events : List Event) (d : Delay α) : Delay α := events.foldr emit d

/-- Exactly `n` pending steps, then `d`. -/
def after : Nat → Delay α → Delay α
  | 0, d => d
  | n + 1, d => later fun _ => after n d

/-- Exactly `n` pending steps, then whatever `next` gives; `next` is not called before. -/
def postpone : Nat → (Unit → Delay α) → Delay α
  | 0, next => next ()
  | n + 1, next => later fun _ => postpone n next

/-! ## §4. Driving a delay to its value. -/

/-- The driver's loop, having called `steps` pending steps and seen `seen` (newest first). -/
def driveFrom : Delay α → Nat → List Event → Traced α
  | now a, steps, seen => ⟨a, (Event.finished steps :: seen).reverse⟩
  | later next, steps, seen => driveFrom (next ()) (steps + 1) seen
  | emit e rest, steps, seen => driveFrom rest steps (e :: seen)

/-- Calls pending steps until there is a value, and ends its log with the number of steps. -/
def drive (d : Delay α) : Traced α := driveFrom d 0 []

/-- The value that driving `d` gives. -/
def run (d : Delay α) : α := d.drive.value

/-! ## §5. Driving by hand. -/

/-- Forgets the events that have already happened and keeps all that is still to come. -/
def settle : Delay α → Delay α
  | emit _ rest => rest.settle
  | d => d

/-- Whether no step is pending. -/
def isDone : Delay α → Bool
  | now _ => true
  | later _ => false
  | emit _ rest => rest.isDone

/-- The value if there is one, and the pending step otherwise. -/
def resume : Delay α → α ⊕ (Unit → Delay α)
  | now a => .inl a
  | later next => .inr next
  | emit _ rest => rest.resume

/-- How far a bounded number of attempts to resume a delay has come. -/
inductive Progress (α : Type u) where
  /-- Resuming gave the value, after `taken` pending steps had been called. -/
  | finished (value : α) (taken : Nat)
  /-- Every attempt met a pending step and called it; `rest` is what remains. -/
  | paused (rest : Delay α)

/-- Resumes up to `limit` times, having called `taken` steps before. -/
def advanceFrom (taken : Nat) : Nat → Delay α → Progress α
  | 0, d => .paused d
  | limit + 1, d =>
    match d.resume with
    | .inl a => .finished a taken
    | .inr next => advanceFrom (taken + 1) limit (next ())

/-- Resumes up to `limit` times, calling each pending step that this brings up. -/
def advance (limit : Nat) (d : Delay α) : Progress α := advanceFrom 0 limit d

/-! ## §6. The loop finds the value, the steps and the events. -/

@[simp] theorem value_now (a : α) : (now a).value = a := rfl

@[simp] theorem value_later (next : Unit → Delay α) : (later next).value = (next ()).value := rfl

@[simp] theorem value_emit (e : Event) (d : Delay α) : (emit e d).value = d.value := rfl

@[simp] theorem steps_now (a : α) : (now a).steps = 0 := rfl

@[simp] theorem steps_later (next : Unit → Delay α) :
    (later next).steps = (next ()).steps + 1 := rfl

@[simp] theorem steps_emit (e : Event) (d : Delay α) : (emit e d).steps = d.steps := rfl

@[simp] theorem events_now (a : α) : (now a).events = [] := rfl

@[simp] theorem events_later (next : Unit → Delay α) :
    (later next).events = (next ()).events := rfl

@[simp] theorem events_emit (e : Event) (d : Delay α) :
    (emit e d).events = e :: d.events := rfl

theorem driveFrom_eq (d : Delay α) (steps : Nat) (seen : List Event) :
    d.driveFrom steps seen =
      ⟨d.value, seen.reverse ++ d.events ++ [.finished (steps + d.steps)]⟩ := by
  induction d generalizing steps seen with
  | now a => simp [driveFrom]
  | later next ih => simp [driveFrom, ih, Nat.add_assoc, Nat.add_comm 1]
  | emit e rest ih => simp [driveFrom, ih]

theorem drive_eq (d : Delay α) : d.drive = ⟨d.value, d.events ++ [.finished d.steps]⟩ := by
  simp [drive, driveFrom_eq]

@[simp] theorem value_drive (d : Delay α) : d.drive.value = d.value := by
  rw [drive_eq]

@[simp] theorem events_drive (d : Delay α) :
    d.drive.events = d.events ++ [.finished d.steps] := by
  rw [drive_eq]

@[simp] theorem run_eq_value (d : Delay α) : d.run = d.value := value_drive d

/-! ## §7. The text of a delay. -/

open Text in
/-- The detailed text of a delay in a style.  Of a pending step there is nothing to show without
calling it, so a fixed word stands for it. -/
def describe [DetailText α] (style : Style) : Delay α → String
  | now a => Layout.tuple style "Done" [detailText style a]
  | later _ => Layout.tuple style "More" [detailText style "<thunk>"]
  | emit _ rest => rest.describe style

instance [DetailText α] : DetailText (Delay α) := ⟨describe⟩

end Delay

end Stepwise
