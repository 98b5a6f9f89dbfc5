/-
  Stepwise.Proofs.OverflowReports
  ────────────────────────────────────────────────────────────────────────────
  **AN OVERFLOW IS REPORTED ONCE, AND ONLY WHERE THERE IS ONE.**

  The report is in the log of the drive, in front of the event that ends it:

      factorialTraced n = ⟨t.value, t.events ++ [.finished (4 * (n - 1))]⟩

  where `t` is a `FactorialOutcome n`.
-/
import Stepwise.Proofs.FirstOverflow

namespace Stepwise

open scoped Nat

/-! ## §1. The outcomes apart. -/

namespace FactorialOutcome

variable {n n' : Nat} {t t' : Traced (Except Overflow UInt64)}

theorem eq_of_lt (h : FactorialOutcome n t) (hfits : n ! < UInt64.size) :
    ∃ w : UInt64, w.toNat = n ! ∧ t = .silent (.ok w) := by
  cases h with
  | @fits w product => exact ⟨w, product, rfl⟩
  | overflows big _ _ => exact absurd hfits (Nat.not_lt.mpr big)

theorem eq_of_le (h : FactorialOutcome n t) (hbig : UInt64.size ≤ n !) :
    ∃ p q : UInt64, IsLeast overflowing p.toNat ∧ q.toNat = (p.toNat - 1)!
      ∧ t = ⟨.error ⟨p⟩, [.overflowed p q]⟩ := by
  cases h with
  | @fits w product =>
      have hlt : n ! < UInt64.size := product ▸ w.toNat_lt
      exact absurd hlt (Nat.not_lt.mpr hbig)
  | @overflows p q _ first before => exact ⟨p, q, first, before, rfl⟩

/-- **The argument has no part in an overflow**: its operand is the first number whose factorial
does not fit, and the product before it is the factorial below. -/
theorem eq_of_overflowing (h : FactorialOutcome n t) (h' : FactorialOutcome n' t')
    (hbig : UInt64.size ≤ n !) (hbig' : UInt64.size ≤ n' !) : t = t' := by
  obtain ⟨p, q, hfirst, hbefore, rfl⟩ := h.eq_of_le hbig
  obtain ⟨p', q', hfirst', hbefore', rfl⟩ := h'.eq_of_le hbig'
  obtain rfl : p = p' := UInt64.toNat_inj.mp (hfirst.unique hfirst')
  obtain rfl : q = q' := UInt64.toNat_inj.mp (hbefore.trans hbefore'.symm)
  rfl

end FactorialOutcome

/-- The factorial of 20 is the last one that fits, so the first overflow is at 21 in front of it. -/
theorem first_overflow_eq {p q : UInt64} (hfirst : IsLeast overflowing p.toNat)
    (hbefore : q.toNat = (p.toNat - 1)!) : p = 21 ∧ q = 2432902008176640000 := by
  have hfits : (20)! < UInt64.size := by decide
  have hbig : UInt64.size ≤ (21)! := by decide
  have hleast : IsLeast overflowing 21 := isLeast_overflowing_succ hfits hbig
  have hp : p.toNat = 21 := hfirst.unique hleast
  rw [hp] at hbefore
  exact ⟨UInt64.toNat_inj.mp hp, UInt64.toNat_inj.mp hbefore⟩

/-! ## §2. The log of a drive. -/

theorem exists_outcome_drive_factorialCps (n : UInt64) :
    ∃ t : Traced (Except Overflow UInt64), FactorialOutcome n.toNat t ∧
      ∀ k, ((factorialCps n).apply k).drive
        = ⟨(k t.value).run,
            t.events ++ ((k t.value).events
              ++ [.finished ((k t.value).steps + 4 * (n.toNat - 1))])⟩ := by
  obtain ⟨t, houtcome, hdrive⟩ := exists_drive_factorialCps n
  refine ⟨t, houtcome, ?_⟩
  intro k
  rw [hdrive, Delay.drive_after, Delay.run_replay, Delay.events_replay, Delay.steps_replay,
    List.append_assoc]

theorem exists_outcome_factorialTraced (n : UInt64) :
    ∃ t : Traced (Except Overflow UInt64), FactorialOutcome n.toNat t ∧
      factorialTraced n = ⟨t.value, t.events ++ [.finished (4 * (n.toNat - 1))]⟩ := by
  obtain ⟨t, houtcome, hdrive⟩ := exists_outcome_drive_factorialCps n
  refine ⟨t, houtcome, ?_⟩
  show ((factorialCps n).apply .now).drive = _
  rw [hdrive, Delay.run_eq_value, Delay.value_now, Delay.events_now, Delay.steps_now,
    List.nil_append, Nat.zero_add]

/-- **AN OVERFLOW IS REPORTED ONCE, AND ONLY WHERE THERE IS ONE.**  Where the factorial fits, the
log is the event that ends the drive.  Where it does not, one report stands before this event: its
operand is that of the result, the smallest number whose factorial does not fit, and its product is
the factorial below.  The drive calls four steps for each number from two to the argument, and none
for zero and one.  How far the argument is beyond the overflow shows in this number alone; and
whatever follows the factorial, the report comes first, before all events of what follows. -/
theorem overflow_is_reported_once (n : UInt64) :
    (n.toNat ! < UInt64.size →
      ∃ w : UInt64, w.toNat = n.toNat !
        ∧ factorialTraced n = ⟨.ok w, [.finished (4 * (n.toNat - 1))]⟩)
    ∧ (UInt64.size ≤ n.toNat ! →
        ∃ p q : UInt64,
          IsLeast { m : Nat | UInt64.size ≤ m ! } p.toNat ∧ q.toNat = (p.toNat - 1)!
            ∧ factorialTraced n
                = ⟨.error ⟨p⟩, [.overflowed p q, .finished (4 * (n.toNat - 1))]⟩)
    ∧ (∀ n' : UInt64, UInt64.size ≤ n.toNat ! → UInt64.size ≤ n'.toNat ! →
        (factorialTraced n').value = (factorialTraced n).value
        ∧ (factorialTraced n').events.dropLast = (factorialTraced n).events.dropLast)
    ∧ (∃ t : Traced (Except Overflow UInt64), FactorialOutcome n.toNat t ∧
        ∀ k, ((factorialCps n).apply k).drive
          = ⟨(k t.value).run,
              t.events ++ ((k t.value).events
                ++ [.finished ((k t.value).steps + 4 * (n.toNat - 1))])⟩) := by
  obtain ⟨t, houtcome, hlog⟩ := exists_outcome_factorialTraced n
  refine ⟨?_, ?_, ?_, exists_outcome_drive_factorialCps n⟩
  · intro hfits
    obtain ⟨w, hw, rfl⟩ := houtcome.eq_of_lt hfits
    exact ⟨w, hw, hlog⟩
  · intro hbig
    obtain ⟨p, q, hfirst, hbefore, rfl⟩ := houtcome.eq_of_le hbig
    exact ⟨p, q, hfirst, hbefore, hlog⟩
  · -- two arguments beyond the overflow
    intro n' hbig hbig'
    obtain ⟨t', houtcome', hlog'⟩ := exists_outcome_factorialTraced n'
    obtain rfl : t = t' := houtcome.eq_of_overflowing houtcome' hbig hbig'
    rw [hlog, hlog']
    refine ⟨rfl, ?_⟩
    rw [List.dropLast_concat, List.dropLast_concat]

/-- No report at 20, one at 21, and the same one at the largest argument whose steps can be counted
in a word, after all of them. -/
theorem overflow_is_reported_once_up_to_two_pow_62 :
    (20)! < UInt64.size ∧ UInt64.size ≤ (21)!
      ∧ UInt64.size ≤ (4611686018427387904 : UInt64).toNat !
      ∧ (∃ w : UInt64, w.toNat = (20)! ∧ factorialTraced 20 = ⟨.ok w, [.finished 76]⟩)
      ∧ factorialTraced 21
          = ⟨.error ⟨21⟩, [.overflowed 21 2432902008176640000, .finished 80]⟩
      ∧ factorialTraced 4611686018427387904
          = ⟨.error ⟨21⟩,
              [.overflowed 21 2432902008176640000, .finished 18446744073709551612]⟩ := by
  have hfits : (20)! < UInt64.size := by decide
  have hbig : UInt64.size ≤ (21)! := by decide
  have hlargest : UInt64.size ≤ (4611686018427387904 : UInt64).toNat ! :=
    Nat.le_trans hbig (Nat.factorial_le (by decide))
  obtain ⟨p, q, hfirst, hbefore, hlog⟩ := (overflow_is_reported_once 21).2.1 hbig
  obtain ⟨rfl, rfl⟩ := first_overflow_eq hfirst hbefore
  obtain ⟨p, q, hfirst', hbefore', hlog'⟩ :=
    (overflow_is_reported_once 4611686018427387904).2.1 hlargest
  obtain ⟨rfl, rfl⟩ := first_overflow_eq hfirst' hbefore'
  exact ⟨hfits, hbig, hlargest, (overflow_is_reported_once 20).1 hfits, hlog, hlog'⟩

end Stepwise
