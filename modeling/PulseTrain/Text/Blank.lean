/-!
# Blank characters

Script lines are trimmed, and states are cut into bits, at the characters with the Unicode property
White_Space; there are twenty-five of them.

* `trim` drops them from both ends.
* `pieces` cuts a text into its maximal runs of other characters.
-/

namespace PulseTrain.Text

/-- The ranges of code points with the property White_Space. -/
def blankRanges : List (Nat × Nat) :=
  [(0x09, 0x0D), (0x20, 0x20), (0x85, 0x85), (0xA0, 0xA0), (0x1680, 0x1680), (0x2000, 0x200A),
    (0x2028, 0x2029), (0x202F, 0x202F), (0x205F, 0x205F), (0x3000, 0x3000)]

/-- `c` is white space. -/
def isBlank (c : Char) : Bool :=
  blankRanges.any fun (first, last) => first ≤ c.toNat && c.toNat ≤ last

example : (blankRanges.map fun (first, last) => last + 1 - first).sum = 25 := by decide

/-- `cs` without the blanks at its ends. -/
def trim (cs : List Char) : List Char :=
  ((cs.dropWhile isBlank).reverse.dropWhile isBlank).reverse

/-- The maximal runs of characters of `cs` that are not blank, in order. -/
def pieces : List Char → List (List Char)
  | [] => []
  | c :: cs =>
    if isBlank c then pieces cs
    else (c :: cs.takeWhile (!isBlank ·)) :: pieces (cs.dropWhile (!isBlank ·))
termination_by cs => cs.length
decreasing_by
  · simp
  · exact Nat.lt_succ_of_le (List.dropWhile_sublist _).length_le

end PulseTrain.Text
