/-
  Stepwise.Cps.Tower
  ────────────────────────────────────────────────────────────────────────────
  **LAYERS OF BIND AND MAP OVER A BASE COMPUTATION.**

  A tower is a number of layers, one over the other.  `chain` stacks its layers
  in a loop before anything runs, `unroll` stacks them while it is driven.
-/
import Stepwise.Cps.Basic

namespace Stepwise

universe u v w

/-! ## §1. Layers. -/

/-- What follows the source in a composition. -/
inductive Layer (ρ : Type u) (α : Type v) (β : Type w) where
  /-- The value goes into the next computation. -/
  | bind (f : α → Cps ρ β)
  /-- The value goes through a function. -/
  | map (f : α → β)

namespace Layer

variable {ρ : Type u} {α : Type v} {β : Type w}

/-- The computation `m` with the layer over it. -/
def on : Layer ρ α β → Cps ρ α → Cps ρ β
  | bind f, m => m.bind f
  | map f, m => m.map f

/-- What a layer does to a value that reaches it, when `k` follows the layer. -/
def feed : Layer ρ α β → α → (β → Delay ρ) → Delay ρ
  | bind f, a, k => (f a).apply k
  | map f, a, k => k (f a)

/-- The layer that does its work in a `bind`, whatever it was. -/
def lift : Layer ρ α β → Layer ρ α β
  | bind f => bind f
  | map f => bind fun a => Cps.pure (f a)

theorem apply_on (l : Layer ρ α β) (m : Cps ρ α) (k : β → Delay ρ) :
    (l.on m).apply k = .later fun _ => m.apply fun a => .later fun _ => l.feed a k := by
  cases l <;> rfl

end Layer

/-! ## §2. Towers. -/

/-- Layers one over the other, from values of type `α` at the bottom to the index at the top. -/
inductive Tower (ρ : Type u) (α : Type v) : Type v → Type (max u (v + 1)) where
  /-- No layer. -/
  | base : Tower ρ α α
  /-- One more layer at the top. -/
  | add {β γ : Type v} (lower : Tower ρ α β) (top : Layer ρ β γ) : Tower ρ α γ

namespace Tower

variable {ρ : Type u} {α β : Type v}

/-- The computation `m` with the tower over it. -/
def on (m : Cps ρ α) : {β : Type v} → Tower ρ α β → Cps ρ β
  | _, base => m
  | _, add lower top => top.on (lower.on m)

/-- The number of layers. -/
def height : {β : Type v} → Tower ρ α β → Nat
  | _, base => 0
  | _, add lower _ => lower.height + 1

/-- What the bottom of the tower is given for a continuation when `k` follows the top: each layer
waits behind a step of its own, the lowest first. -/
def entry : {β : Type v} → Tower ρ α β → (β → Delay ρ) → α → Delay ρ
  | _, base, k => k
  | _, add lower top, k => lower.entry fun b => .later fun _ => top.feed b k

/-- The tower with those layers lifted whose place, counted from the bottom, is chosen. -/
def liftWhere (choose : Nat → Bool) : {β : Type v} → Tower ρ α β → Tower ρ α β
  | _, base => base
  | _, add lower top =>
    add (lower.liftWhere choose) (if choose lower.height then top.lift else top)

end Tower

/-! ## §3. The same height reached in two ways. -/

namespace Cps

variable {ρ : Type u} {α : Type v}

/-- The computation `base` with the layers `layer 0`, …, `layer (n - 1)` over it, stacked in a
loop. -/
def chain (base : Cps ρ α) (layer : Nat → Layer ρ α α) (n : Nat) : Cps ρ α :=
  n.fold (fun i _ m => (layer i).on m) base

/-- The recursion that is `base` at zero and otherwise binds the number below to itself, with
`layer n` over that at `n + 1`. -/
def unroll (base : Cps ρ α) (layer : Nat → Layer ρ α α) : Nat → Cps ρ α
  | 0 => base
  | n + 1 =>
    (layer n).on <|
      (Cps.pure (Fin.last n)).bind fun i : Fin (n + 1) => unroll base layer i.val
termination_by n => n

@[simp] theorem chain_zero (base : Cps ρ α) (layer : Nat → Layer ρ α α) :
    chain base layer 0 = base := rfl

theorem chain_succ (base : Cps ρ α) (layer : Nat → Layer ρ α α) (n : Nat) :
    chain base layer (n + 1) = (layer n).on (chain base layer n) := by
  simp [chain]

theorem unroll_zero (base : Cps ρ α) (layer : Nat → Layer ρ α α) :
    unroll base layer 0 = base := by
  rw [unroll]

theorem unroll_succ (base : Cps ρ α) (layer : Nat → Layer ρ α α) (n : Nat) :
    unroll base layer (n + 1) =
      (layer n).on
        ((Cps.pure (Fin.last n)).bind fun i : Fin (n + 1) => unroll base layer i.val) := by
  rw [unroll]

end Cps

end Stepwise
