import PulseTrain.Halt
import PulseTrain.Text.Numeral

/-!
# Counters

The card counts samples and clock cycles in sixty-four bits. A count is a natural number, and the bound is
applied where a count arises:

* `clamp`, `fit?` and `read?` where it comes in from outside: from a time, from script text, from an
  argument.
* `Arithmetic.count` where it is a sum or a product of counts. What happens to one that does not fit was
  decided when the program was built.
-/

namespace PulseTrain.Counter

/-- The first count that no longer fits. -/
def bound : Nat := Nat.pow 2 64

/-- `n`, or the largest count if `n` does not fit. A negative number counts as zero. -/
def clamp (n : Int) : Nat :=
  min n.toNat (bound - 1)

/-- `n`, if it fits. -/
def fit? (n : Nat) : Option Nat :=
  if n < bound then some n else none

/-- What becomes of a sum or a product that does not fit. -/
inductive Arithmetic where
  /-- The program stops. -/
  | checked
  /-- The program goes on with what sixty-four bits keep of it. -/
  | wrapping
deriving DecidableEq, Repr

/-- The count that a program goes on with when a sum or a product comes to `n`. -/
def Arithmetic.count : Arithmetic → Nat → Except Halt Nat
  | checked, n => (fit? n).elim (.error .overflow) .ok
  | wrapping, n => .ok (n % bound)

namespace Arithmetic

/-- A count that fits is gone on with as it is. -/
theorem count_of_lt (arithmetic : Arithmetic) {n : Nat} (h : n < bound) :
    arithmetic.count n = .ok n := by
  cases arithmetic with
  | checked => rw [count, fit?, if_pos h, Option.elim]
  | wrapping => rw [count, Nat.mod_eq_of_lt h]

/-- A checked count that does not fit is an overflow. -/
theorem count_checked_of_le {n : Nat} (h : bound ≤ n) : checked.count n = .error .overflow := by
  rw [count, fit?, if_neg (Nat.not_lt.mpr h), Option.elim]

/-- A program goes on with what a counter keeps, and if it is checked, then only if that is all. -/
theorem count_eq_ok_iff {arithmetic : Arithmetic} {n m : Nat} :
    arithmetic.count n = .ok m ↔ m = n % bound ∧ (arithmetic = checked → n < bound) := by
  cases arithmetic with
  | wrapping => simp [count, eq_comm]
  | checked =>
    by_cases h : n < bound
    · simp [count_of_lt checked h, Nat.mod_eq_of_lt h, h, eq_comm]
    · simp [count_checked_of_le (Nat.le_of_not_lt h), h]

/-- All that can go wrong with a count is that it does not fit. -/
theorem count_eq_error_iff {arithmetic : Arithmetic} {n : Nat} {reason : Halt} :
    arithmetic.count n = .error reason
      ↔ reason = .overflow ∧ arithmetic = checked ∧ bound ≤ n := by
  cases arithmetic with
  | wrapping => simp [count]
  | checked =>
    by_cases h : n < bound
    · simp [count_of_lt checked h, Nat.not_le.mpr h]
    · simp [count_checked_of_le (Nat.le_of_not_lt h), Nat.le_of_not_lt h, eq_comm]

end Arithmetic

/-- Reads a count written in decimal digits, after a plus sign if there is one. A count that does not
fit is not read. -/
def read? : List Char → Option Nat
  | '+' :: digits => (Numeral.readDecimal digits).bind fit?
  | digits => (Numeral.readDecimal digits).bind fit?

example : read? "+07".toList = some 7 ∧ read? "-0".toList = none := by decide +kernel
example : read? "18446744073709551616".toList = none := by decide +kernel

end PulseTrain.Counter
