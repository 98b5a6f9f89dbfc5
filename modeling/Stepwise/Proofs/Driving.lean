/-
  Stepwise.Proofs.Driving
  ────────────────────────────────────────────────────────────────────────────
  **DRIVING AT ONCE AND DRIVING BY HAND.**

  The loop says `ReturnsAfter d n v`; whoever resumes a delay and calls the steps
  that come up sees `StopsIn turn n d v`.  Both determine the number and the
  value, so one lemma is enough for either direction: `stopsIn_turn`.
-/
import Stepwise.Delay.Lemmas
import Stepwise.Delay.Loop

namespace Stepwise

universe u v w

/-! ## §1. A loop stops in one way. -/

namespace Transition

variable {σ : Type u} {ρ : Type v} {step : σ → Transition σ ρ}

theorem StopsIn.unique {n n' : Nat} {s : σ} {r r' : ρ} (h : StopsIn step n s r)
    (h' : StopsIn step n' s r') : n = n' ∧ r = r' := by
  induction h generalizing n' with
  | stop e =>
      cases h' with
      | stop e' => exact ⟨rfl, stop.inj (e.symm.trans e')⟩
      | next e' _ => exact absurd (e.symm.trans e') (by simp)
  | next e _ ih =>
      cases h' with
      | stop e' => exact absurd (e.symm.trans e') (by simp)
      | next e' hrest =>
          obtain rfl := next.inj (e.symm.trans e')
          obtain ⟨hn, hr⟩ := ih hrest
          exact ⟨congrArg (· + 1) hn, hr⟩

/-- How a loop stops depends on its first turn, and on the state only through that. -/
theorem StopsIn.of_step_eq {n : Nat} {s s' : σ} {r : ρ} (e : step s = step s')
    (h : StopsIn step n s r) : StopsIn step n s' r := by
  cases h with
  | stop hstop => exact .stop (e.symm.trans hstop)
  | next hnext hrest => exact .next (e.symm.trans hnext) hrest

end Transition

namespace Delay

open Transition (Follows StopsIn)

variable {α : Type u}

/-! ## §2. What the loop says. -/

/-- Driving `d` gives the value `v`, and the log ends with the event of a drive of `n` steps. -/
def ReturnsAfter (d : Delay α) (n : Nat) (v : α) : Prop :=
  d.drive = ⟨v, d.events ++ [.finished n]⟩

theorem returnsAfter_iff (d : Delay α) (n : Nat) (v : α) :
    d.ReturnsAfter n v ↔ d.steps = n ∧ d.value = v := by
  unfold ReturnsAfter
  rw [drive_eq]
  simp [and_comm]

theorem returnsAfter_settle_iff (d : Delay α) (n : Nat) (v : α) :
    d.settle.ReturnsAfter n v ↔ d.ReturnsAfter n v := by
  rw [returnsAfter_iff, returnsAfter_iff, steps_settle, value_settle]

/-- Steps in front are steps more, and nothing else. -/
theorem returnsAfter_after_iff (j : Nat) (d : Delay α) (n : Nat) (v : α) :
    (after j d).ReturnsAfter (n + j) v ↔ d.ReturnsAfter n v := by
  rw [returnsAfter_iff, returnsAfter_iff, steps_after, value_after, Nat.add_right_cancel_iff]

/-! ## §3. What happens by hand. -/

/-- One turn by hand: the value if it comes up, and the rest behind the pending step otherwise. -/
def turn (d : Delay α) : Transition (Delay α) α :=
  match d.resume with
  | .inl a => .stop a
  | .inr next => .next (next ())

theorem stopsIn_turn (d : Delay α) : StopsIn turn d.steps d d.value := by
  induction d with
  | now a => exact .stop rfl
  | later next ih => exact .next rfl (ih ())
  | emit e rest ih =>
      -- the event has happened already: the turn is that of what stands behind it
      have hturn : turn rest = turn (.emit e rest) := rfl
      exact StopsIn.of_step_eq hturn ih

theorem stopsIn_turn_iff (d : Delay α) (n : Nat) (v : α) :
    StopsIn turn n d v ↔ d.steps = n ∧ d.value = v := by
  constructor
  · intro h
    exact (stopsIn_turn d).unique h
  · rintro ⟨rfl, rfl⟩
    exact stopsIn_turn d

/-- With a step before the value, that step comes up; the value stays what it is, one step is
gone, and so are the events `seen` in front of it. -/
theorem exists_resume_of_steps_pos (d : Delay α) (h : 0 < d.steps) :
    ∃ (next : Unit → Delay α) (seen : List Event),
      d.resume = .inr next ∧ (next ()).value = d.value ∧ (next ()).steps + 1 = d.steps
        ∧ d.events = seen ++ (next ()).events := by
  induction d with
  | now a => exact absurd h (by simp)
  | later next _ => exact ⟨next, [], rfl, rfl, rfl, rfl⟩
  | emit e rest ih =>
      obtain ⟨next, seen, hresume, hvalue, hsteps, hevents⟩ := ih h
      exact ⟨next, e :: seen, hresume, hvalue, hsteps, congrArg (e :: ·) hevents⟩

/-- As many turns as there are steps before the value, or fewer, leave a delay with the same value
and the remaining steps.  Its events are those after `seen`: the ones that happened when the last
step was called, which `settle` forgets, and then the ones that are still to come. -/
theorem exists_advanceFrom_paused (k : Nat) :
    ∀ (d : Delay α) (taken : Nat), k ≤ d.steps →
      ∃ (rest : Delay α) (seen : List Event),
        d.advanceFrom taken k = .paused rest ∧ rest.value = d.value ∧ rest.steps + k = d.steps
          ∧ d.events = seen ++ rest.events := by
  induction k with
  | zero =>
      intro d taken _
      exact ⟨d, [], rfl, rfl, rfl, rfl⟩
  | succ k ih =>
      intro d taken h
      have hpos : 0 < d.steps := by omega
      obtain ⟨next, first, hresume, hvalue, hsteps, hevents⟩ := exists_resume_of_steps_pos d hpos
      have hle : k ≤ (next ()).steps := by omega
      obtain ⟨rest, seen, hpaused, hvalue', hsteps', hevents'⟩ := ih (next ()) (taken + 1) hle
      refine ⟨rest, first ++ seen, ?_, hvalue'.trans hvalue, by omega, ?_⟩
      · unfold advanceFrom
        rw [hresume]
        exact hpaused
      · rw [hevents, hevents', List.append_assoc]

theorem advance_eq_finished_iff (d : Delay α) (n : Nat) (v : α) :
    d.advance (n + 1) = .finished v n ↔ d.steps = n ∧ d.value = v := by
  by_cases h : d.steps < n + 1
  · rw [advance_of_steps_lt d (n + 1) h, Progress.finished.injEq, and_comm]
  · -- all attempts go to pending steps
    obtain ⟨rest, _, hpaused, _⟩ := exists_advanceFrom_paused (n + 1) d 0 (Nat.le_of_not_lt h)
    have hadvance : d.advance (n + 1) = .paused rest := hpaused
    rw [hadvance]
    constructor
    · intro hfinished
      exact absurd hfinished (by simp)
    · intro hsteps
      omega

/-- A delay that returns can be handed over after any number of its steps. -/
theorem ReturnsAfter.exists_paused {d : Delay α} {n : Nat} {v : α} (h : d.ReturnsAfter n v)
    {k : Nat} (hk : k ≤ n) :
    ∃ (rest : Delay α) (seen : List Event),
      d.advance k = .paused rest ∧ d.events = seen ++ rest.events
        ∧ (rest.isDone = true ↔ k = n) ∧ rest.ReturnsAfter (n - k) v := by
  obtain ⟨hsteps, hvalue⟩ := (returnsAfter_iff d n v).mp h
  have hle : k ≤ d.steps := by omega
  obtain ⟨rest, seen, hpaused, hvalue', hsteps', hevents⟩ := exists_advanceFrom_paused k d 0 hle
  have hleft : rest.steps = n - k := by omega
  refine ⟨rest, seen, hpaused, hevents, ?_, ?_⟩
  · rw [isDone_iff_steps_eq_zero]
    omega
  · exact (returnsAfter_iff rest (n - k) v).mpr ⟨hleft, hvalue'.trans hvalue⟩

/-! ## §4. Loops that need not end. -/

variable {σ : Type w}

theorem stopsIn_iterate (step : σ → Transition σ α) {s : σ} (h : Acc (Follows step) s) :
    StopsIn step (iterate step s h).steps s (iterate step s h).value := by
  induction h with
  | intro s hprev ih =>
      cases e : step s with
      | stop r =>
          rw [iterate_of_stop (.intro s hprev) e]
          exact .stop e
      | next t =>
          rw [iterate_of_next (.intro s hprev) e]
          exact .next e (ih t e)

/-- A loop over states can be driven, to a value and in a number of steps, exactly when the plain
loop stops there after as many transitions. -/
theorem exists_returnsAfter_iterate_iff (step : σ → Transition σ α) (s : σ) (n : Nat) (v : α) :
    (∃ h : Acc (Follows step) s, (iterate step s h).ReturnsAfter n v) ↔ StopsIn step n s v := by
  constructor
  · rintro ⟨h, hreturns⟩
    obtain ⟨rfl, rfl⟩ := (returnsAfter_iff _ n v).mp hreturns
    exact stopsIn_iterate step h
  · intro h
    exact ⟨h.acc, (returnsAfter_iff _ n v).mpr ((stopsIn_iterate step h.acc).unique h)⟩

/-! ## §5. The two drivers agree. -/

/-- **DRIVING AT ONCE AND STEP BY STEP AGREE**: the loop returns `v` after `n` steps exactly when
`n` steps come up by hand, each of them is called, and then `v` comes up.  After any number of
these steps the delay can be handed over to the loop: it is done exactly when none is left, it
returns the same value, and its own event counts the steps that are left.  Steps in front are added
to the number, and events that have happened before make no difference to it.  Of a loop over
states, which may have no end, the same is true: it can be driven just when it stops. -/
theorem driving_agrees_with_resuming (d : Delay α) (n : Nat) (v : α) :
    (d.ReturnsAfter n v ↔ StopsIn turn n d v)
    ∧ (d.ReturnsAfter n v ↔ d.advance (n + 1) = .finished v n)
    ∧ (d.ReturnsAfter n v → ∀ k, k ≤ n →
        ∃ (rest : Delay α) (seen : List Event),
          d.advance k = .paused rest ∧ d.events = seen ++ rest.events
            ∧ (rest.isDone = true ↔ k = n) ∧ rest.run = v ∧ rest.ReturnsAfter (n - k) v)
    ∧ (∀ j, (after j d).run = d.run ∧ ((after j d).ReturnsAfter (n + j) v ↔ d.ReturnsAfter n v))
    ∧ (d.settle.ReturnsAfter n v ↔ d.ReturnsAfter n v)
    ∧ (∀ (σ : Type w) (step : σ → Transition σ α) (s : σ),
        (∃ h : Acc (Follows step) s, (iterate step s h).ReturnsAfter n v)
          ↔ StopsIn step n s v) := by
  refine ⟨?_, ?_, ?_, ?_, returnsAfter_settle_iff d n v, ?_⟩
  · rw [returnsAfter_iff, stopsIn_turn_iff]
  · rw [returnsAfter_iff, advance_eq_finished_iff]
  · -- handing over after `k` steps
    intro h k hk
    obtain ⟨rest, seen, hpaused, hevents, hdone, hreturns⟩ := h.exists_paused hk
    have hrun : rest.run = v := congrArg Traced.value hreturns
    exact ⟨rest, seen, hpaused, hevents, hdone, hrun, hreturns⟩
  · intro j
    exact ⟨run_after j d, returnsAfter_after_iff j d n v⟩
  · intro σ step s
    exact exists_returnsAfter_iterate_iff step s n v

/-- Two steps with the event of an inner drive between them, handed over after the first one: the
second is still to come, and the drive counts only that. -/
theorem driving_agrees_after_one_of_two :
    let d : Delay Nat := .later fun _ => .emit (.finished 3) (.later fun _ => .now 7)
    d.ReturnsAfter 2 7 ∧ 1 ≤ 2
      ∧ (∃ (rest : Delay Nat) (seen : List Event),
          d.advance 1 = .paused rest ∧ d.events = seen ++ rest.events
            ∧ (rest.isDone = true ↔ 1 = 2) ∧ rest.run = 7 ∧ rest.ReturnsAfter 1 7)
      ∧ (after 4 d).ReturnsAfter 6 7 := by
  intro d
  have h : d.ReturnsAfter 2 7 := rfl
  obtain ⟨-, -, handover, wrapped, -, -⟩ := driving_agrees_with_resuming.{0, 0} d 2 7
  exact ⟨h, by decide, handover h 1 (by decide), (wrapped 4).2.mpr h⟩

end Delay

end Stepwise
