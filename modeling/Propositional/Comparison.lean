import Propositional.TruthTable

/-!
# Propositional — comparing formulas

Several formulas are compared over the names of all of them together. Two
questions are asked of a list: whether all formulas agree, and whether no two of
them do. The first visits the joint rows once; the second goes through the pairs
in order, each over its own names, and stops at the first equivalent pair.
-/

namespace Propositional

/-- Why a list of formulas cannot be compared. -/
inductive ComparisonError where
  /-- There are fewer than two. -/
  | tooFew (count : Nat)
  | tooManyVariables (e : TooManyVariables)
  deriving DecidableEq

/-- What is wrong, in words. -/
def ComparisonError.message : ComparisonError → String
  | tooFew count =>
    s!"Invalid argument: comparing requires at least two expressions, got {count}"
  | tooManyVariables e => e.message

/-- The names that occur in any of the formulas, in order and each once. -/
def jointVocabulary (fs : List Formula) : Array String :=
  Names.ofList (fs.flatMap Formula.names)

/-- Whether the rows of the joint variables give the formulas of the list the value of the first
one. -/
def agree (first : Formula) (others : List Formula) : Except TooManyVariables Bool := do
  let names ← enumerable (jointVocabulary (first :: others))
  return (Assignment.rows names).all fun row =>
    let expected := first.eval row.value
    others.all fun f => f.eval row.value == expected

/-- Whether two formulas agree on the rows of their joint variables. -/
def Formula.isEquivalent (f g : Formula) : Except TooManyVariables Bool := agree f [g]

/-- The pairs of list members, by the first member and then by the second. -/
def pairs {α : Type} : List α → List (α × α)
  | [] => []
  | x :: xs => xs.map (x, ·) ++ pairs xs

/-- Whether no pair is equivalent; the first equivalent pair ends the search. -/
def noneEquivalent : List (Formula × Formula) → Except TooManyVariables Bool
  | [] => .ok true
  | (f, g) :: rest => do
    if ← f.isEquivalent g then return false
    noneEquivalent rest

/-- Whether all formulas of the list are equivalent. -/
def allEquivalent : List Formula → Except ComparisonError Bool
  | f :: g :: rest => (agree f (g :: rest)).mapError .tooManyVariables
  | fs => .error (.tooFew fs.length)

/-- Whether no two formulas of the list are equivalent. -/
def allDifferent (fs : List Formula) : Except ComparisonError Bool :=
  if fs.length < 2 then .error (.tooFew fs.length)
  else (noneEquivalent (pairs fs)).mapError .tooManyVariables

/-- The joint names are those of the members. -/
theorem mem_jointVocabulary {fs : List Formula} {name : String} :
    name ∈ jointVocabulary fs ↔ ∃ f ∈ fs, name ∈ f.names := by
  simp [jointVocabulary, Names.mem_ofList]

/-- The joint names stand in order, each once. -/
theorem ordered_jointVocabulary (fs : List Formula) : Names.Ordered (jointVocabulary fs) :=
  Names.ordered_ofList _

end Propositional
