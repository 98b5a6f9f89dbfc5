/-
  Stepwise.Delay.Lemmas
  ────────────────────────────────────────────────────────────────────────────
  **WHAT THE BUILDERS OF DELAYS DO TO VALUE, STEPS AND EVENTS.**

  One lemma for each builder and each of the three views, and driving by hand,
  which calls the same steps as the loop.
-/
import Stepwise.Delay.Basic

namespace Stepwise.Delay

universe u

variable {α : Type u}

/-! ## §1. Events put in front. -/

@[simp] theorem replay_nil (d : Delay α) : replay [] d = d := rfl

@[simp] theorem replay_cons (e : Event) (es : List Event) (d : Delay α) :
    replay (e :: es) d = .emit e (replay es d) := rfl

@[simp] theorem value_replay (es : List Event) (d : Delay α) : (replay es d).value = d.value := by
  induction es with
  | nil => rfl
  | cons e es ih => simp [ih]

@[simp] theorem steps_replay (es : List Event) (d : Delay α) : (replay es d).steps = d.steps := by
  induction es with
  | nil => rfl
  | cons e es ih => simp [ih]

@[simp] theorem events_replay (es : List Event) (d : Delay α) :
    (replay es d).events = es ++ d.events := by
  induction es with
  | nil => rfl
  | cons e es ih => simp [ih]

/-! ## §2. Steps put in front. -/

@[simp] theorem after_zero (d : Delay α) : after 0 d = d := rfl

theorem after_succ (n : Nat) (d : Delay α) : after (n + 1) d = .later fun _ => after n d := rfl

theorem after_add (m n : Nat) (d : Delay α) : after (m + n) d = after m (after n d) := by
  induction m with
  | zero => simp
  | succ m ih => rw [Nat.succ_add, after_succ, ih, after_succ]

theorem after_succ_eq_after_later (n : Nat) (d : Delay α) :
    after (n + 1) d = after n (.later fun _ => d) :=
  after_add n 1 d

@[simp] theorem value_after (n : Nat) (d : Delay α) : (after n d).value = d.value := by
  induction n with
  | zero => rfl
  | succ n ih => simp [after_succ, ih]

@[simp] theorem steps_after (n : Nat) (d : Delay α) : (after n d).steps = d.steps + n := by
  induction n with
  | zero => rfl
  | succ n ih => simp [after_succ, ih, Nat.add_assoc]

@[simp] theorem events_after (n : Nat) (d : Delay α) : (after n d).events = d.events := by
  induction n with
  | zero => rfl
  | succ n ih => simp [after_succ, ih]

/-- Postponing a thunk builds nothing else than steps before its result. -/
theorem postpone_eq_after (n : Nat) (next : Unit → Delay α) :
    postpone n next = after n (next ()) := by
  induction n with
  | zero => rfl
  | succ n ih => simp [postpone, after_succ, ih]

/-! ## §3. What the driver's answer does not depend on. -/

theorem run_later (next : Unit → Delay α) : (later next).run = (next ()).run := by
  rw [run_eq_value, run_eq_value, value_later]

theorem run_after (n : Nat) (d : Delay α) : (after n d).run = d.run := by
  rw [run_eq_value, run_eq_value, value_after]

theorem run_replay (es : List Event) (d : Delay α) : (replay es d).run = d.run := by
  rw [run_eq_value, run_eq_value, value_replay]

/-- A drive of steps in front of a delay ends like that of the delay, and counts them too. -/
theorem drive_after (n : Nat) (d : Delay α) :
    (after n d).drive = ⟨d.run, d.events ++ [.finished (d.steps + n)]⟩ := by
  rw [drive_eq, value_after, events_after, steps_after, run_eq_value]

/-- Steps and nothing else leave a single event. -/
theorem drive_after_now (n : Nat) (a : α) : (after n (.now a)).drive = ⟨a, [.finished n]⟩ := by
  rw [drive_after, run_eq_value, value_now, events_now, steps_now, List.nil_append, Nat.zero_add]

theorem drive_eq_drive_iff (d d' : Delay α) :
    d.drive = d'.drive ↔ d.value = d'.value ∧ d.steps = d'.steps ∧ d.events = d'.events := by
  rw [drive_eq, drive_eq, Traced.mk.injEq]
  constructor
  · rintro ⟨hvalue, hlog⟩
    obtain ⟨hevents, hlast⟩ := List.append_inj' hlog rfl
    have hsteps : d.steps = d'.steps := by simpa using hlast
    exact ⟨hvalue, hsteps, hevents⟩
  · rintro ⟨hvalue, hsteps, hevents⟩
    exact ⟨hvalue, by rw [hevents, hsteps]⟩

/-! ## §4. Driving by hand. -/

@[simp] theorem value_settle (d : Delay α) : d.settle.value = d.value := by
  induction d with
  | now a => rfl
  | later next => rfl
  | emit e rest ih => exact ih

@[simp] theorem steps_settle (d : Delay α) : d.settle.steps = d.steps := by
  induction d with
  | now a => rfl
  | later next => rfl
  | emit e rest ih => exact ih

theorem isDone_iff_steps_eq_zero (d : Delay α) : d.isDone = true ↔ d.steps = 0 := by
  induction d with
  | now a => simp [isDone]
  | later next => simp [isDone]
  | emit e rest ih => simpa [isDone] using ih

theorem resume_isLeft (d : Delay α) : d.resume.isLeft = d.isDone := by
  induction d with
  | now a => rfl
  | later next => rfl
  | emit e rest ih => exact ih

/-- A limit above the number of steps is not reached: every step is called once, and the value is
there. -/
theorem advanceFrom_of_steps_lt (d : Delay α) :
    ∀ (taken limit : Nat), d.steps < limit →
      d.advanceFrom taken limit = .finished d.value (taken + d.steps) := by
  -- along the delay: of its constructors only `later` uses up an attempt
  induction d with
  | now a =>
      intro taken limit h
      cases limit with
      | zero => exact absurd h (by simp)
      | succ limit => rfl
  | later next ih =>
      intro taken limit h
      cases limit with
      | zero => exact absurd h (by simp)
      | succ limit =>
          have hnext : (next ()).steps < limit := Nat.lt_of_succ_lt_succ h
          -- one attempt is used up, and one step is counted
          show (next ()).advanceFrom (taken + 1) limit = _
          rw [ih () (taken + 1) limit hnext, value_later, steps_later]
          congr 1
          omega
  | emit e rest ih =>
      intro taken limit h
      cases limit with
      | zero => exact absurd h (by simp)
      | succ limit =>
          -- an event is no step: the attempt goes to what stands behind it
          show rest.advanceFrom taken (limit + 1) = _
          exact ih taken (limit + 1) h

theorem advance_of_steps_lt (d : Delay α) (limit : Nat) (h : d.steps < limit) :
    d.advance limit = .finished d.value d.steps := by
  unfold advance
  rw [advanceFrom_of_steps_lt d 0 limit h, Nat.zero_add]

/-- Steps in front are called one by one, and nothing behind them is touched before. -/
theorem advanceFrom_after (d : Delay α) :
    ∀ (i n taken : Nat), i ≤ n → (after n d).advanceFrom taken i = .paused (after (n - i) d) := by
  -- on the attempts, each of which takes one step off the front
  intro i
  induction i with
  | zero => intro n taken _; rfl
  | succ i ih =>
      intro n taken h
      cases n with
      | zero => exact absurd h (by omega)
      | succ n =>
          show (after n d).advanceFrom (taken + 1) i = _
          rw [ih n (taken + 1) (by omega), Nat.add_sub_add_right]

end Stepwise.Delay
