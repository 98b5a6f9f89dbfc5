/-
  Stepwise.Cps.Basic
  ────────────────────────────────────────────────────────────────────────────
  **COMPUTATIONS IN CONTINUATION-PASSING STYLE, DRIVEN STEP BY STEP.**

  A computation is a function of its continuation: it may call it, drop it, or
  drive it and work on the answer.  `bind` and `map` put one pending step before
  their source and one before their function, so however a composition is
  nested, no more than one of its layers is called at a time.
-/
import Stepwise.Delay.Basic

namespace Stepwise

universe u v w

/-! ## §1. Computations. -/

/-- A computation that passes values of type `α` to its continuation on the way to an answer
of type `ρ`.  Any function of the continuation is one. -/
structure Cps (ρ : Type u) (α : Type v) where
  /-- Gives the computation its continuation. -/
  apply : (α → Delay ρ) → Delay ρ

namespace Cps

variable {ρ : Type u} {α : Type v} {β : Type w}

/-! ## §2. Simple computations. -/

/-- Passes `a` on at once. -/
protected def pure (a : α) : Cps ρ α := ⟨fun k => k a⟩

/-- Passes `a` on after `n` pending steps. -/
def defer (n : Nat) (a : α) : Cps ρ α := ⟨fun k => Delay.postpone n fun _ => k a⟩

/-- Gives the answer `r` and drops the continuation. -/
def abort (r : ρ) : Cps ρ α := ⟨fun _ => .now r⟩

/-- Passes `a` on, drives what follows to its answer, and answers with `g` of that.  The events
of the drive have happened when the answer is there. -/
def post (a : α) (g : ρ → ρ) : Cps ρ α :=
  ⟨fun k =>
    let answer := (k a).drive
    .replay answer.events (.now (g answer.value))⟩

/-! ## §3. Composition. -/

/-- Passes what `f` makes of each value of `m` on to the continuation. -/
protected def bind (m : Cps ρ α) (f : α → Cps ρ β) : Cps ρ β :=
  ⟨fun k => .later fun _ => m.apply fun a => .later fun _ => (f a).apply k⟩

/-- `bind` under another name. -/
abbrev flatMap (m : Cps ρ α) (f : α → Cps ρ β) : Cps ρ β := m.bind f

/-- `bind` under another name, for what comes after `m`. -/
abbrev andThen (m : Cps ρ α) (f : α → Cps ρ β) : Cps ρ β := m.bind f

/-- Applies `f` to each value of `m`. -/
protected def map (f : α → β) (m : Cps ρ α) : Cps ρ β :=
  ⟨fun k => .later fun _ => m.apply fun a => .later fun _ => k (f a)⟩

/-- Applies `f` to each value of `m`; what `f` reports happens before the continuation is
called. -/
def mapTraced (f : α → Traced β) (m : Cps ρ α) : Cps ρ β :=
  ⟨fun k => .later fun _ => m.apply fun a => .later fun _ =>
    let b := f a
    .replay b.events (k b.value)⟩

instance [Inhabited ρ] : Inhabited (Cps ρ α) := ⟨abort default⟩

/-- The laws of a monad hold of the answers: the two sides of a law may differ in their steps. -/
instance : Monad (Cps ρ) where
  pure := Cps.pure
  bind := Cps.bind
  map := Cps.map

/-! ## §4. Running. -/

/-- Drives `m` with the final function `f` for a continuation. -/
def runWithTraced (m : Cps ρ α) (f : α → ρ) : Traced ρ := (m.apply fun a => .now (f a)).drive

/-- The answer of `m` when the final function `f` follows it. -/
def runWith (m : Cps ρ α) (f : α → ρ) : ρ := (m.runWithTraced f).value

/-- Drives `m` when nothing follows it. -/
def runTraced (m : Cps ρ ρ) : Traced ρ := (m.apply .now).drive

/-- The answer of `m` when nothing follows it. -/
def run (m : Cps ρ ρ) : ρ := m.runTraced.value

/-- The answer of `m` depends on what its continuation answers, and not on the way in which the
continuation gets there. -/
def RespectsResults (m : Cps ρ α) : Prop :=
  ∀ k k' : α → Delay ρ, (∀ a, (k a).run = (k' a).run) → (m.apply k).run = (m.apply k').run

/-! ## §5. What each operation does with a continuation. -/

@[simp] theorem apply_pure (a : α) (k : α → Delay ρ) : (Cps.pure a).apply k = k a := rfl

@[simp] theorem apply_abort (r : ρ) (k : α → Delay ρ) : (abort r).apply k = .now r := rfl

@[simp] theorem apply_bind (m : Cps ρ α) (f : α → Cps ρ β) (k : β → Delay ρ) :
    (m.bind f).apply k = .later fun _ => m.apply fun a => .later fun _ => (f a).apply k := rfl

@[simp] theorem apply_map (f : α → β) (m : Cps ρ α) (k : β → Delay ρ) :
    (m.map f).apply k = .later fun _ => m.apply fun a => .later fun _ => k (f a) := rfl

/-- A function that reports nothing is mapped in the plain way. -/
theorem mapTraced_silent (f : α → β) (m : Cps ρ α) :
    m.mapTraced (fun a => .silent (f a)) = m.map f := rfl

/-! ## §6. The text of a computation. -/

/-- A computation is a function, so its text names the kind of value and shows nothing of it, in
every style. -/
instance : DetailText (Cps ρ α) := ⟨fun _ _ => Text.Layout.sealed "ContinuationMonad"⟩

end Cps

end Stepwise
