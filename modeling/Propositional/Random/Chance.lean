/-!
# Propositional — chances

The chance of an event, as the number of 64-bit words out of all `2 ^ 64` on
which it happens. A certain event is told apart, because no word is drawn for
it.
-/

namespace Propositional

/-- The chance of an event. -/
inductive Chance where
  /-- The event happens, whatever is drawn. -/
  | certain
  /-- The event happens if the drawn word is below the threshold. -/
  | below (threshold : UInt64)
  deriving DecidableEq

/-- The error of a number that is no probability. -/
inductive ProbabilityError where
  | outOfRange
  deriving DecidableEq

/-- What is wrong, in words. -/
def ProbabilityError.message : ProbabilityError → String
  | outOfRange => "Probability must be in 0..=1"

namespace Chance

/-- No chance. -/
def never : Chance := .below 0

/-- A chance of one half. -/
def half : Chance := .below 0x8000000000000000

/-- A chance of 0.2, as near as a double comes to it. -/
def fifth : Chance := .below 0x3333333333333400

/-- A chance of 0.3, as near as a double comes to it. -/
def threeTenths : Chance := .below 0x4CCCCCCCCCCCCC00

/-- The chance that a double states: the words it gives are the whole part of `p * 2 ^ 64`. -/
def ofFloat (p : Float) : Except ProbabilityError Chance :=
  if 0 ≤ p ∧ p ≤ 1 then
    .ok (if p == 1 then .certain else .below (p.scaleB 64).toUInt64)
  else .error .outOfRange

end Chance

end Propositional
