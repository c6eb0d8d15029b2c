/-!
# Numerals

A natural number written in a base, most significant digit first, and the same read back.

* `Numeral.digits` writes: at least one digit, and no leading zero but for the number zero.
* `Numeral.value` reads digits back; `value_digits` says that it undoes `digits`.
* `Numeral.decimal` is the text of a count wherever the library prints one.
* `Numeral.readDecimal` is the strict reader: digits only, and at least one of them.
-/

namespace PulseTrain.Numeral

/-- The digits of `n`, most significant first. A base below two has no positional form, so `n`
itself stands for its only digit there. -/
def digits (base n : Nat) : List Nat :=
  if n < base ∨ base < 2 then [n] else digits base (n / base) ++ [n % base]
termination_by n
decreasing_by
  have hbase : 2 ≤ base := by omega
  exact Nat.div_lt_self (by omega) hbase

/-- The number that `ds` stands for in `base`. -/
def value (base : Nat) (ds : List Nat) : Nat :=
  ds.foldl (fun n d => base * n + d) 0

theorem value_append_singleton (base : Nat) (ds : List Nat) (d : Nat) :
    value base (ds ++ [d]) = base * value base ds + d := by
  simp [value, List.foldl_append]

/-- Reading the digits of a number gives the number. -/
theorem value_digits (base n : Nat) : value base (digits base n) = n := by
  fun_induction digits base n with
  | case1 n h => simp [value]
  | case2 n h ih => rw [value_append_singleton, ih, Nat.div_add_mod]

/-- The decimal text of `n`. -/
def decimal (n : Nat) : List Char :=
  (digits 10 n).map Nat.digitChar

/-- The decimal text of `n`, as a string. -/
def text (n : Nat) : String :=
  String.ofList (decimal n)

/-- Reads one more decimal digit, if `c` is one of the ten ASCII digits. -/
def readDigit (n : Nat) (c : Char) : Option Nat :=
  if c.isDigit then some (10 * n + (c.toNat - '0'.toNat)) else none

/-- Reads a text made of decimal digits alone, of which there is at least one. -/
def readDecimal : List Char → Option Nat
  | [] => none
  | c :: cs => (c :: cs).foldlM readDigit 0

end PulseTrain.Numeral
