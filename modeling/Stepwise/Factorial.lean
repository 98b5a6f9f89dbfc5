/-
  Stepwise.Factorial
  ────────────────────────────────────────────────────────────────────────────
  **FACTORIALS OF 64-BIT WORDS.**

  The factorial recurses through `bind`.  The first multiplication that leaves
  the range of its words is reported and becomes the result.
-/
import Stepwise.Cps.Basic
import Stepwise.Text.Form
import Stepwise.Text.Layout

namespace Stepwise

open Text

/-! ## §1. Overflow. -/

/-- A multiplication by `operand` whose product does not fit in 64 bits. -/
structure Overflow where
  /-- The number that was multiplied by. -/
  operand : UInt64
deriving DecidableEq

/-- What an overflow says to a reader. -/
def Overflow.message (o : Overflow) : String :=
  "numeric overflow: multiplying by " ++ toString o.operand.toNat ++ " exceeds the u64 range"

/-- What lies behind an overflow: nothing but the product itself. -/
def Overflow.cause? (_ : Overflow) : Option Overflow := none

instance : DetailText Overflow where
  detailText style o :=
    Layout.record style "NumericOverflow" [("operand", detailText style o.operand)]

/-! ## §2. The checked product. -/

/-- The product of two words if it fits; an overflow is reported. -/
def checkedMul (operand product : UInt64) : Traced (Except Overflow UInt64) :=
  if operand.toNat * product.toNat < UInt64.size then .silent (.ok (operand * product))
  else ⟨.error ⟨operand⟩, [.overflowed operand product]⟩

/-- Multiplies a product so far by `operand`; an overflow stays what it is. -/
def multiply (operand : UInt64) : Except Overflow UInt64 → Traced (Except Overflow UInt64)
  | .ok product => checkedMul operand product
  | .error o => .silent (.error o)

/-! ## §3. The factorial. -/

theorem toNat_eq_sub_one_add_one {n : UInt64} (h : ¬ n ≤ 1) :
    n.toNat = (n - 1).toNat + 1 ∧ 1 < n.toNat := by
  have hgt : 1 < n.toNat := by simpa [UInt64.le_iff_toNat_le] using h
  have hle : (1 : UInt64) ≤ n := UInt64.le_iff_toNat_le.mpr (Nat.le_of_lt hgt)
  have hsub : (n - 1).toNat = n.toNat - 1 := UInt64.toNat_sub_of_le n 1 hle
  exact ⟨by omega, hgt⟩

theorem sub_one_lt_of_not_le_one {n : UInt64} (h : ¬ n ≤ 1) : n - 1 < n := by
  obtain ⟨hn, _⟩ := toNat_eq_sub_one_add_one h
  rw [UInt64.lt_iff_toNat_lt, hn]
  exact Nat.lt_succ_self _

/-- The factorial of `n` as a computation: the factorial of the number below, and then one
multiplication. -/
def factorialCps (n : UInt64) : Cps (Except Overflow UInt64) (Except Overflow UInt64) :=
  if h : n ≤ 1 then Cps.pure (.ok 1)
  else
    ((Cps.pure (⟨n - 1, sub_one_lt_of_not_le_one h⟩ : { m // m < n })).bind
      fun m => factorialCps m.val).mapTraced (multiply n)
termination_by n.toNat
decreasing_by exact UInt64.lt_iff_toNat_lt.mp m.property

theorem factorialCps_of_le_one {n : UInt64} (h : n ≤ 1) : factorialCps n = Cps.pure (.ok 1) := by
  rw [factorialCps, dif_pos h]

theorem factorialCps_of_not_le_one {n : UInt64} (h : ¬ n ≤ 1) :
    factorialCps n =
      ((Cps.pure (⟨n - 1, sub_one_lt_of_not_le_one h⟩ : { m // m < n })).bind
        fun m => factorialCps m.val).mapTraced (multiply n) := by
  rw [factorialCps, dif_neg h]

/-- The factorial of `n` or the overflow that it runs into, and what was reported on the way. -/
def factorialTraced (n : UInt64) : Traced (Except Overflow UInt64) := (factorialCps n).runTraced

/-- The factorial of `n`, or the overflow that it runs into. -/
def factorial (n : UInt64) : Except Overflow UInt64 := (factorialTraced n).value

end Stepwise
