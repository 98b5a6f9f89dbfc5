/-
  Stepwise.Cps.Plan
  ────────────────────────────────────────────────────────────────────────────
  **A COMPUTATION WRITTEN DOWN, AND THREE WAYS OF READING IT.**

  A plan is read as the computation (`toCps`), as a function of a plain
  continuation without any delay (`meaning`), and as what it costs its driver
  (`cost`).
-/
import Stepwise.Cps.Basic

namespace Stepwise

universe u

/-! ## §1. Plans. -/

/-- How a computation is put together. -/
inductive Plan (ρ : Type u) : Type u → Type (u + 1) where
  /-- Passes `a` on at once. -/
  | pure {α : Type u} (a : α) : Plan ρ α
  /-- Passes `a` on after `n` pending steps. -/
  | defer {α : Type u} (n : Nat) (a : α) : Plan ρ α
  /-- Gives the answer and drops what follows. -/
  | abort {α : Type u} (r : ρ) : Plan ρ α
  /-- Drives what follows `a` and answers with `g` of its answer. -/
  | post {α : Type u} (a : α) (g : ρ → ρ) : Plan ρ α
  /-- Each value decides on the plan that follows it. -/
  | bind {α β : Type u} (m : Plan ρ α) (f : α → Plan ρ β) : Plan ρ β
  /-- Each value goes through a function. -/
  | map {α β : Type u} (m : Plan ρ α) (f : α → β) : Plan ρ β

/-- What a delay costs its driver: the steps to call and the events to write down. -/
structure Cost where
  /-- The pending steps that are called. -/
  steps : Nat
  /-- The events on the way, oldest first. -/
  events : List Event
deriving DecidableEq

namespace Cost

/-- The cost of driving a delay, without the event that ends the drive. -/
def ofDelay {α : Type u} (d : Delay α) : Cost := ⟨d.steps, d.events⟩

/-- The cost with `n` steps more in front. -/
def plus (n : Nat) (c : Cost) : Cost := ⟨n + c.steps, c.events⟩

/-- The cost of a drive inside another one: no step for the driver outside, and one more event. -/
def enclosed (c : Cost) : Cost := ⟨0, c.events ++ [.finished c.steps]⟩

end Cost

namespace Plan

variable {ρ : Type u}

/-! ## §2. The three readings. -/

/-- The computation that a plan describes. -/
def toCps : {α : Type u} → Plan ρ α → Cps ρ α
  | _, pure a => Cps.pure a
  | _, defer n a => Cps.defer n a
  | _, abort r => Cps.abort r
  | _, post a g => Cps.post a g
  | _, bind m f => m.toCps.bind fun a => (f a).toCps
  | _, map m f => m.toCps.map f

/-- The answer of a plan as a function of what follows it. -/
def meaning : {α : Type u} → Plan ρ α → (α → ρ) → ρ
  | _, pure a, c => c a
  | _, defer _ a, c => c a
  | _, abort r, _ => r
  | _, post a g, c => g (c a)
  | _, bind m f, c => m.meaning fun a => (f a).meaning c
  | _, map m f, c => m.meaning fun a => c (f a)

/-- The cost of a plan as a function of the cost of what follows it. -/
def cost : {α : Type u} → Plan ρ α → (α → Cost) → Cost
  | _, pure a, c => c a
  | _, defer n a, c => (c a).plus n
  | _, abort _, _ => ⟨0, []⟩
  | _, post a _, c => (c a).enclosed
  | _, bind m f, c => (m.cost fun a => ((f a).cost c).plus 1).plus 1
  | _, map m f, c => (m.cost fun a => (c (f a)).plus 1).plus 1

end Plan

end Stepwise
