/-
  Stepwise.Proofs.Recursions
  ────────────────────────────────────────────────────────────────────────────
  **DRIVEN RECURSIONS COMPUTE WHAT THE NATIVE ONES COMPUTE.**

  A recursion in tail position is a loop over states, and procedures that call
  each other are one loop with the procedure's name in the state.  A recursion
  that uses its result keeps what remains to be done in a continuation.
-/
import Stepwise.Delay.Lemmas
import Stepwise.Delay.Loop

namespace Stepwise.Delay

open Transition (Follows StopsIn)

universe u v w x

/-! ## §1. Loops over states. -/

section Loops

variable {σ : Type u} {ρ : Type v} {step : σ → Transition σ ρ} {n : Nat} {s : σ} {r : ρ}

theorem iterate_eq_after (hstops : StopsIn step n s r) :
    ∀ h : Acc (Follows step) s, iterate step s h = .after n (.now r) := by
  -- along the run of the plain loop
  induction hstops with
  | stop e =>
      intro h
      exact iterate_of_stop h e
  | next e _ ih =>
      intro h
      rw [iterate_of_next h e, ih (h.inv e), after_succ]

/-- Events have no part in a loop: the log of its drive is the one event at the end. -/
theorem drive_iterate (hstops : StopsIn step n s r) (h : Acc (Follows step) s) :
    (iterate step s h).drive = ⟨r, [.finished n]⟩ := by
  rw [iterate_eq_after hstops h, drive_after_now]

theorem isDone_iterate_of_pos (hstops : StopsIn step n s r) (h : Acc (Follows step) s)
    (hpos : 0 < n) : (iterate step s h).isDone = false := by
  cases hstops with
  | stop e => exact absurd hpos (Nat.lt_irrefl 0)
  | next e hrest =>
      rw [iterate_of_next h e]
      rfl

/-- **The driver is where the plain loop is**: as many steps by hand as transitions lead to the
loop from the state behind these transitions. -/
theorem exists_advanceFrom_iterate (hstops : StopsIn step n s r) :
    ∀ (k taken : Nat) (h : Acc (Follows step) s), k ≤ n →
      ∃ (t : σ) (ht : Acc (Follows step) t),
        (iterate step s h).advanceFrom taken k = .paused (iterate step t ht)
          ∧ StopsIn step (n - k) t r := by
  -- along the run again, with the number of steps by hand general: it ends before or in the run
  induction hstops with
  | @stop s r e =>
      intro k taken h hk
      obtain rfl : k = 0 := Nat.le_zero.mp hk
      exact ⟨s, h, rfl, .stop e⟩
  | @next n s t r e hrest ih =>
      intro k taken h hk
      cases k with
      | zero => exact ⟨s, h, rfl, .next e hrest⟩
      | succ k =>
          -- the first step is the first transition, and the others are those of the rest
          obtain ⟨t', ht', hpaused, hstops'⟩ :=
            ih k (taken + 1) (h.inv e) (Nat.le_of_succ_le_succ hk)
          refine ⟨t', ht', ?_, ?_⟩
          · rw [iterate_of_next h e]
            exact hpaused
          · rwa [Nat.add_sub_add_right]

end Loops

/-! ## §2. Recursions that use their result. -/

section Descents

variable {α : Type u} {β : Type v}

theorem descend_eq_after (base : Unit → β) (body : Nat → β → β) (n : Nat) :
    ∀ k : β → Delay α,
      descend base body n k = .after (2 * n + 1) (k (descendNatively (base ()) body n)) := by
  -- the continuation is one link longer at every level
  induction n with
  | zero => intro k; rfl
  | succ n ih =>
      intro k
      -- one step leads down; the other is the last link of the continuation below
      show (later fun _ => descend base body n fun r => .later fun _ => k (body (n + 1) r)) = _
      rw [ih, ← after_succ_eq_after_later, ← after_succ]
      rfl

end Descents

/-! ## §3. Both shapes. -/

/-- **WHAT A RECURSION COMPUTES, ITS DRIVEN FORM COMPUTES**, and in a fixed number of steps.  A loop
over states, with whatever states and results, is the chain of its transitions; from a state where
the plain loop stops after `n` of them, the driver returns the same result and counts `n` steps,
and after fewer steps by hand it stands, still pending, where the plain loop stands.  A recursion
that uses its result calls two steps per level and one more before its continuation, and the
continuation gets the value of the native recursion. -/
theorem driven_recursions_compute_native_ones {σ : Type u} {ρ : Type v} {α : Type w} {β : Type x} :
    (∀ (step : σ → Transition σ ρ) (s : σ) (h : Acc (Follows step) s),
      (∀ r, step s = .stop r → iterate step s h = .now r)
      ∧ ∀ (t : σ) (e : step s = .next t),
          iterate step s h = .later fun _ => iterate step t (h.inv e))
    ∧ (∀ (step : σ → Transition σ ρ) (s : σ) (n : Nat) (r : ρ), StopsIn step n s r →
        ∃ h : Acc (Follows step) s,
          iterate step s h = .after n (.now r)
          ∧ (iterate step s h).run = r
          ∧ (iterate step s h).drive.events = [.finished n]
          ∧ ∀ k, k < n →
              ∃ (t : σ) (ht : Acc (Follows step) t),
                (iterate step s h).advance k = .paused (iterate step t ht)
                  ∧ (iterate step t ht).isDone = false ∧ StopsIn step (n - k) t r)
    ∧ (∀ (base : Unit → β) (body : Nat → β → β) (n : Nat) (k : β → Delay α),
        descend base body n k
          = .after (2 * n + 1) (k (descendNatively (base ()) body n))) := by
  refine ⟨?_, ?_, descend_eq_after⟩
  · intro step s h
    exact ⟨fun r e => iterate_of_stop h e, fun t e => iterate_of_next h e⟩
  · intro step s n r hstops
    have hdrive := drive_iterate hstops hstops.acc
    refine ⟨hstops.acc, iterate_eq_after hstops _, congrArg Traced.value hdrive,
      congrArg Traced.events hdrive, ?_⟩
    intro k hk
    obtain ⟨t, ht, hpaused, hrest⟩ :=
      exists_advanceFrom_iterate hstops k 0 hstops.acc (Nat.le_of_lt hk)
    exact ⟨t, ht, hpaused, isDone_iterate_of_pos hrest ht (Nat.sub_pos_of_lt hk), hrest⟩

/-- Two procedures that call each other, `even` and `odd`, as one loop whose states carry the name
of the procedure; and the sum of the numbers up to a number. -/
theorem driven_recursions_compute_parity_and_sum :
    let step : Bool × Nat → Transition (Bool × Nat) Bool := fun s =>
      match s with
      | (even, 0) => .stop even
      | (even, n + 1) => .next (!even, n)
    StopsIn step 3 (true, 3) false ∧ 2 < 3
      ∧ (∃ h : Acc (Follows step) (true, 3),
          (iterate step (true, 3) h).run = false
          ∧ (iterate step (true, 3) h).drive.events = [.finished 3]
          ∧ ∃ (t : Bool × Nat) (ht : Acc (Follows step) t),
              (iterate step (true, 3) h).advance 2 = .paused (iterate step t ht)
                ∧ (iterate step t ht).isDone = false)
      ∧ descend (fun _ => 0) (· + ·) 4 (fun r => .now (r * 100)) = .after 9 (.now 1000) := by
  intro step
  have hstops : StopsIn step 3 (true, 3) false := .next rfl (.next rfl (.next rfl (.stop rfl)))
  obtain ⟨-, loops, descents⟩ := driven_recursions_compute_native_ones
    (σ := Bool × Nat) (ρ := Bool) (α := Nat) (β := Nat)
  obtain ⟨h, -, hrun, hevents, hpending⟩ := loops step (true, 3) 3 false hstops
  obtain ⟨t, ht, hpaused, hdone, -⟩ := hpending 2 (by decide)
  exact ⟨hstops, by decide, ⟨h, hrun, hevents, t, ht, hpaused, hdone⟩, descents _ _ 4 _⟩

end Stepwise.Delay
