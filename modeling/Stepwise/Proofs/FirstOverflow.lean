/-
  Stepwise.Proofs.FirstOverflow
  ────────────────────────────────────────────────────────────────────────────
  **FACTORIALS ARE EXACT OR NAME THE FIRST OVERFLOW.**

  The products are made on the way back, from the lowest number up.  What they
  should come to is a `FactorialOutcome`, and one multiplication leads from an
  outcome at `n` to one at `n + 1`.
-/
import Mathlib.Data.Nat.Factorial.Basic
import Mathlib.Order.Bounds.Basic
import Stepwise.Delay.Lemmas
import Stepwise.Factorial

namespace Stepwise

open scoped Nat

/-! ## §1. The checked product. -/

theorem toNat_mul_of_lt_size {a b : UInt64} (h : a.toNat * b.toNat < UInt64.size) :
    (a * b).toNat = a.toNat * b.toNat := by
  rw [UInt64.toNat_mul]
  exact Nat.mod_eq_of_lt h

theorem checkedMul_of_lt {a b : UInt64} (h : a.toNat * b.toNat < UInt64.size) :
    checkedMul a b = .silent (.ok (a * b)) := if_pos h

theorem checkedMul_of_le {a b : UInt64} (h : UInt64.size ≤ a.toNat * b.toNat) :
    checkedMul a b = ⟨.error ⟨a⟩, [.overflowed a b]⟩ := if_neg (Nat.not_lt.mpr h)

/-! ## §2. What a factorial should come to. -/

/-- The numbers whose factorials do not fit in a word. -/
def overflowing : Set Nat := { m | UInt64.size ≤ m ! }

/-- Above the last number whose factorial fits is the first one whose factorial does not. -/
theorem isLeast_overflowing_succ {m : Nat} (hfits : m ! < UInt64.size)
    (hbig : m + 1 ∈ overflowing) : IsLeast overflowing (m + 1) := by
  refine ⟨hbig, ?_⟩
  intro j hj
  by_contra hlt
  have hle : j ! ≤ m ! := Nat.factorial_le (by omega)
  have hsize : UInt64.size ≤ j ! := hj
  omega

/-- What the factorial of `n` should come to, and what should be reported on the way. -/
inductive FactorialOutcome (n : Nat) : Traced (Except Overflow UInt64) → Prop where
  /-- The exact product, and no report. -/
  | fits {w : UInt64} (product : w.toNat = n !) : FactorialOutcome n (.silent (.ok w))
  /-- The first number whose factorial does not fit, and one report of the product before it. -/
  | overflows {p q : UInt64} (big : n ∈ overflowing) (first : IsLeast overflowing p.toNat)
      (before : q.toNat = (p.toNat - 1)!) :
      FactorialOutcome n ⟨.error ⟨p⟩, [.overflowed p q]⟩

namespace FactorialOutcome

theorem of_le_one {n : Nat} (h : n ≤ 1) : FactorialOutcome n (.silent (.ok 1)) :=
  .fits (Nat.factorial_eq_one.mpr h).symm

/-- **One multiplication leads to the outcome at the next number**: it is exact, or it is the first
that overflows, or it leaves an overflow as it is. -/
theorem succ {m : Nat} {n : UInt64} (hn : n.toNat = m + 1)
    {t : Traced (Except Overflow UInt64)} (h : FactorialOutcome m t) :
    FactorialOutcome (m + 1)
      ⟨(multiply n t.value).value, t.events ++ (multiply n t.value).events⟩ := by
  cases h with
  | @fits w product =>
      have hproduct : n.toNat * w.toNat = (m + 1)! := by
        rw [hn, product, Nat.factorial_succ]
      by_cases hfits : (m + 1)! < UInt64.size
      · have hlt : n.toNat * w.toNat < UInt64.size := by rwa [hproduct]
        have hmul : multiply n (.ok w) = .silent (.ok (n * w)) := checkedMul_of_lt hlt
        have hexact : (n * w).toNat = (m + 1)! := (toNat_mul_of_lt_size hlt).trans hproduct
        rw [Traced.value_silent, hmul]
        exact .fits hexact
      · -- all factorials below fit, the last of them being the word `w`
        have hbig : m + 1 ∈ overflowing := Nat.le_of_not_lt hfits
        have hle : UInt64.size ≤ n.toNat * w.toNat := by rw [hproduct]; exact hbig
        have hmul : multiply n (.ok w) = ⟨.error ⟨n⟩, [.overflowed n w]⟩ :=
          checkedMul_of_le hle
        have hbelow : m ! < UInt64.size := product ▸ w.toNat_lt
        have hfirst : IsLeast overflowing n.toNat := hn ▸ isLeast_overflowing_succ hbelow hbig
        have hword : w.toNat = (n.toNat - 1)! := by rw [hn, product, Nat.add_sub_cancel]
        rw [Traced.value_silent, hmul]
        exact .overflows hbig hfirst hword
  | overflows big first before =>
      have hbig : UInt64.size ≤ (m + 1)! := Nat.le_trans big (Nat.factorial_le (Nat.le_succ m))
      exact .overflows hbig first before

end FactorialOutcome

/-! ## §3. The recursion. -/

/-- One level of the recursion: three steps lead down, and one more comes before the product. -/
theorem apply_factorialCps_of_not_le_one {n : UInt64} (h : ¬ n ≤ 1)
    (k : Except Overflow UInt64 → Delay (Except Overflow UInt64)) :
    (factorialCps n).apply k
      = .after 3 ((factorialCps (n - 1)).apply fun r =>
          .after 1 (.replay (multiply n r).events (k (multiply n r).value))) := by
  rw [factorialCps_of_not_le_one h]
  rfl

theorem exists_drive_factorialCps (n : UInt64) :
    ∃ t : Traced (Except Overflow UInt64), FactorialOutcome n.toNat t ∧
      ∀ k, ((factorialCps n).apply k).drive
        = (Delay.after (4 * (n.toNat - 1)) (.replay t.events (k t.value))).drive := by
  -- the outcome must not depend on `k`, which holds one multiplication more at every level
  induction n using factorialCps.induct with
  | case1 n h =>
      have hle : n.toNat ≤ 1 := by simpa [UInt64.le_iff_toNat_le] using h
      refine ⟨.silent (.ok 1), .of_le_one hle, ?_⟩
      intro k
      have hsteps : 4 * (n.toNat - 1) = 0 := by omega
      rw [factorialCps_of_le_one h, hsteps]
      rfl
  | case2 n h ih =>
      obtain ⟨hn, hgt⟩ := toNat_eq_sub_one_add_one h
      obtain ⟨t, houtcome, hdrive⟩ := ih ⟨n - 1, sub_one_lt_of_not_le_one h⟩
      refine ⟨_, hn ▸ houtcome.succ hn, ?_⟩
      intro k
      -- the multiplication by `n` is part of what follows the recursion below
      obtain ⟨hvalue, hsteps, hevents⟩ := (Delay.drive_eq_drive_iff _ _).mp <| hdrive fun r =>
        .after 1 (.replay (multiply n r).events (k (multiply n r).value))
      rw [apply_factorialCps_of_not_le_one h, Delay.drive_eq_drive_iff]
      simp only [Delay.value_after, Delay.value_replay, Delay.steps_after, Delay.steps_replay,
        Delay.events_after, Delay.events_replay] at hvalue hsteps hevents ⊢
      refine ⟨hvalue, ?_, ?_⟩
      · omega
      · rw [hevents, List.append_assoc]

theorem exists_outcome_factorial (n : UInt64) :
    ∃ t : Traced (Except Overflow UInt64), FactorialOutcome n.toNat t ∧ factorial n = t.value := by
  obtain ⟨t, houtcome, hdrive⟩ := exists_drive_factorialCps n
  refine ⟨t, houtcome, ?_⟩
  show ((factorialCps n).apply .now).drive.value = t.value
  rw [hdrive, Delay.value_drive, Delay.value_after, Delay.value_replay, Delay.value_now]

/-- **A FACTORIAL IS EXACT WHERE IT FITS, AND OTHERWISE NAMES THE FIRST OVERFLOW**: below the size
of words, which is 2^64, the result is the factorial itself; from there on it is an overflow, and
its operand is the smallest number whose factorial does not fit, whatever the argument is. -/
theorem factorial_exact_or_first_overflow (n : UInt64) :
    (n.toNat ! < UInt64.size → ∃ w : UInt64, factorial n = .ok w ∧ w.toNat = n.toNat !)
    ∧ (UInt64.size ≤ n.toNat ! →
        ∃ p : UInt64, factorial n = .error ⟨p⟩
          ∧ IsLeast { m : Nat | UInt64.size ≤ m ! } p.toNat) := by
  obtain ⟨t, houtcome, hvalue⟩ := exists_outcome_factorial n
  cases houtcome with
  | @fits w product =>
      have hlt : n.toNat ! < UInt64.size := product ▸ w.toNat_lt
      constructor
      · intro _
        exact ⟨w, hvalue, product⟩
      · intro hbig
        exact absurd hlt (Nat.not_lt.mpr hbig)
  | @overflows p q big first _ =>
      constructor
      · intro hfits
        exact absurd hfits (Nat.not_lt.mpr big)
      · intro _
        exact ⟨p, hvalue, first⟩

/-- The factorial of 20 fits; that of 100 stops at the operand 21, and not at 100. -/
theorem factorial_exact_or_first_overflow_at_twenty :
    (20)! < UInt64.size ∧ UInt64.size ≤ (100)!
      ∧ (∃ w : UInt64, factorial 20 = .ok w ∧ w.toNat = (20)!)
      ∧ factorial 100 = .error ⟨21⟩ := by
  have hfits : (20)! < UInt64.size := by decide
  have hbig : UInt64.size ≤ (100)! := by decide
  have hnext : UInt64.size ≤ (21)! := by decide
  have hleast : IsLeast overflowing 21 := isLeast_overflowing_succ hfits hnext
  obtain ⟨p, hp, hfirst⟩ := (factorial_exact_or_first_overflow 100).2 hbig
  have hoperand : p = 21 := UInt64.toNat_inj.mp (hfirst.unique hleast)
  exact ⟨hfits, hbig, (factorial_exact_or_first_overflow 20).1 hfits, hoperand ▸ hp⟩

end Stepwise
