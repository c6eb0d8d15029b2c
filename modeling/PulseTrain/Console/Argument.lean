import PulseTrain.Counter
import PulseTrain.Fault

/-!
# Arguments from outside

A sequencer can be driven from outside, by calls whose arguments bring their types with them. Each
parameter takes some types and turns the others away; what it takes is read here, before anything is
done. Numbers count as of the wrong type where a count is wanted, even whole ones, if they are written
as fractions; truth values count as one and zero.
-/

namespace PulseTrain.Console

/-- An argument without parts. `other` stands for whatever no parameter takes. -/
inductive Scalar where
  | null
  | bool (value : Bool)
  | int (value : Int)
  | number (value : Float)
  | text (value : String)
  | other
deriving DecidableEq, Repr

/-- An argument. Of a table only the keys are of interest. -/
inductive Argument where
  | scalar (value : Scalar)
  | list (items : List Scalar)
  | table (keys : List String)
deriving DecidableEq, Repr

/-- Why a call is turned away: by the sequencer, for an argument of the wrong type or out of its range,
or for a key that is missing on the caller's side. -/
inductive Refusal where
  | fault (fault : Fault)
  | wrongType
  | outOfRange
  | missingKey
deriving DecidableEq, Repr

namespace Scalar

/-- The whole number of an argument. -/
def whole : Scalar → Except Refusal Int
  | int value => .ok value
  | bool value => .ok value.toInt
  | _ => .error .wrongType

/-- A count, which must fit a counter. -/
def count (s : Scalar) : Except Refusal Nat := do
  match ← s.whole with
  | .ofNat n => if n < Counter.bound then .ok n else .error .outOfRange
  | .negSucc _ => .error .outOfRange

/-- A level. Only a truth value is one. -/
def level : Scalar → Except Refusal Bool
  | bool value => .ok value
  | _ => .error .wrongType

/-- A bit of a profile: a truth value, or a signed number of sixty-four bits that is not zero. -/
def bit (s : Scalar) : Except Refusal Bool := do
  let n ← s.whole
  if -(Nat.pow 2 63 : Int) ≤ n ∧ n < Nat.pow 2 63 then .ok (n ≠ 0) else .error .outOfRange

/-- A name. -/
def name : Scalar → Except Refusal String
  | text value => .ok value
  | _ => .error .wrongType

/-- The scalar that stands for all keys equal to `s`. Keys that are the same number are the same key,
whether they are written as whole numbers, as fractions or as truth values. -/
def key : Scalar → Scalar
  | bool value => .int value.toInt
  | number value =>
    match (Binary64.ofFloat value).whole? with
    | some n => .int n
    | none => .number value
  | s => s

example : key (bool false) = key (int 0) ∧ key (number 1) = key (bool true) := by decide +kernel
example : key (text "1") ≠ key (int 1) ∧ key (number 1.5) ≠ key (int 1) := by decide +kernel

/-- Telling keys apart leaves names as they are. -/
theorem name_key (s : Scalar) : s.key.name = s.name := by
  cases s with
  | number value =>
    simp only [key]
    split <;> rfl
  | _ => rfl

end Scalar

namespace Argument

/-- Several counts. -/
def counts : Argument → Except Refusal (List Nat)
  | list items => items.mapM Scalar.count
  | _ => .error .wrongType

/-- A bit vector. A text stands for its characters and a table for its keys, none of which is a
bit. -/
def bits : Argument → Except Refusal (List Bool)
  | list items => items.mapM Scalar.bit
  | table keys => (keys.map Scalar.text).mapM Scalar.bit
  | scalar (.text value) => value.toList.mapM fun c => (Scalar.text (String.singleton c)).bit
  | scalar _ => .error .wrongType

end Argument

end PulseTrain.Console
