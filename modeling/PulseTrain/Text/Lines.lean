/-!
# Physical lines

A line ends at a line feed, with or without a carriage return right before it; neither belongs to the
line. What follows the last line feed is a line unless it is empty.
-/

namespace PulseTrain.Text

/-- The physical lines of a text. -/
def lines : List Char → List (List Char)
  | [] => []
  | '\n' :: cs => [] :: lines cs
  | '\r' :: '\n' :: cs => [] :: lines cs
  | c :: cs =>
    match lines cs with
    | [] => [[c]]
    | line :: rest => (c :: line) :: rest

example : lines "a\r\n\nb".toList = ["a".toList, [], "b".toList] := by decide

end PulseTrain.Text
