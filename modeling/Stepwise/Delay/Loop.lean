/-
  Stepwise.Delay.Loop
  ────────────────────────────────────────────────────────────────────────────
  **RECURSIONS THAT ARE DRIVEN INSTEAD OF CALLED.**

  `iterate` is a loop over states, one pending step per transition; `descend` is
  a recursion whose result is used after the call.  Each stands beside its plain
  form, `StopsIn` and `descendNatively`.
-/
import Stepwise.Delay.Basic

namespace Stepwise

universe u v

/-! ## §1. Loops over states. -/

/-- What one turn of a loop decides: to stop with a result, or to go on from another state. -/
inductive Transition (σ : Type u) (ρ : Type v) where
  /-- The loop ends with `result`. -/
  | stop (result : ρ)
  /-- The loop goes on from `state`. -/
  | next (state : σ)

namespace Transition

variable {σ : Type u} {ρ : Type v}

/-- The loop goes from the state `s` to the state `t`. -/
def Follows (step : σ → Transition σ ρ) (t s : σ) : Prop := step s = .next t

/-- The plain loop, started from a state, stops with a result after a number of transitions. -/
inductive StopsIn (step : σ → Transition σ ρ) : Nat → σ → ρ → Prop where
  /-- The first turn stops. -/
  | stop {s : σ} {r : ρ} : step s = .stop r → StopsIn step 0 s r
  /-- The first turn goes on, and the loop stops from there. -/
  | next {n : Nat} {s t : σ} {r : ρ} :
      step s = .next t → StopsIn step n t r → StopsIn step (n + 1) s r

/-- A loop that stops has no infinite run of transitions before it. -/
theorem StopsIn.acc {step : σ → Transition σ ρ} {n : Nat} {s : σ} {r : ρ}
    (h : StopsIn step n s r) : Acc (Follows step) s := by
  induction h with
  | stop e => exact ⟨_, fun t ht => by simp [Follows, e] at ht⟩
  | next e _ ih =>
    refine ⟨_, fun t ht => ?_⟩
    have : _ = t := next.inj (e.symm.trans ht)
    exact this ▸ ih

end Transition

namespace Delay

open Transition

variable {σ : Type u} {ρ : Type v}

/-- The loop from `s`, one pending step for each transition; `h` says that it ends. -/
def iterate (step : σ → Transition σ ρ) (s : σ) (h : Acc (Follows step) s) : Delay ρ :=
  match e : step s with
  | .stop r => .now r
  | .next t => .later fun _ => iterate step t (h.inv e)
termination_by (⟨s, h⟩ : { s // Acc (Follows step) s })
decreasing_by exact e

theorem iterate_of_stop {step : σ → Transition σ ρ} {s : σ} {r : ρ} (h : Acc (Follows step) s)
    (e : step s = .stop r) : iterate step s h = .now r := by
  rw [iterate]
  split <;> simp_all

theorem iterate_of_next {step : σ → Transition σ ρ} {s t : σ} (h : Acc (Follows step) s)
    (e : step s = .next t) :
    iterate step s h = .later fun _ => iterate step t (h.inv e) := by
  rw [iterate]
  split
  · simp_all
  · rename_i e'
    obtain rfl : t = _ := Transition.next.inj (e.symm.trans e')
    rfl

/-! ## §2. Recursions that use their result. -/

variable {α : Type u} {β : Type v}

/-- The recursion with the value of `base` at zero and `body n r` at `n`, where `r` is its value at
the number below `n`.  Each level costs a step on the way down and one on the way back, where the
value is handed to the continuation; `base` is not called before the recursion is at zero. -/
def descend (base : Unit → β) (body : Nat → β → β) : Nat → (β → Delay α) → Delay α
  | 0, k => .later fun _ => k (base ())
  | n + 1, k => .later fun _ => descend base body n fun r => .later fun _ => k (body (n + 1) r)

/-- The same recursion calling itself. -/
def descendNatively (base : β) (body : Nat → β → β) : Nat → β
  | 0 => base
  | n + 1 => body (n + 1) (descendNatively base body n)

end Delay

end Stepwise
