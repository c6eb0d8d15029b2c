import PulseTrain.Demonstration

/-!
# The demonstration as a program

Prints `Demonstration.texts`.
-/

/-- Prints the report of the demonstration, or why there is none. -/
def main : IO UInt32 := do
  match PulseTrain.Demonstration.texts with
  | .ok texts =>
    texts.forM IO.println
    return 0
  | .error message =>
    IO.eprintln message
    return 1
