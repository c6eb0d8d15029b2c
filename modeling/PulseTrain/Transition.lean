/-!
# Transitions

A transition asks for one channel to go to one level at one time. Requests come in any order of time;
where they are kept is a `Sink`, which keeps the order in which they came.

The type of times is a parameter. Recordings use doubles; what is said of spacing in time can be said
of exact times as well.
-/

namespace PulseTrain

/-- A request for a level. -/
structure Transition (τ : Type) where
  time : τ
  channel : Nat
  level : Bool
deriving DecidableEq, Repr

/-- What takes transitions, in the order in which they come. -/
class Sink (τ : outParam Type) (σ : Type) where
  append : σ → List (Transition τ) → σ

/-- A list takes transitions at its end. -/
instance (τ : Type) : Sink τ (List (Transition τ)) where
  append := (· ++ ·)

end PulseTrain
