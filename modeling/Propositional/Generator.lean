import Propositional.Formula
import Propositional.Random.Source

/-!
# Propositional — generating formulas

A random formula with a given number of literals over given names. Conjunction
and disjunction are idempotent, so a name that comes twice in one of their
chains (`A ∧ ¬A`, `A ∨ A`) makes the formula collapse. The generator therefore
remembers the names that a chain has used and draws the others; when fewer than
two are left it does not continue the chain, and as long as there are fewer than
it may need, continuing has a weight of its own. Under every other connective a
new chain starts.

A right side of one literal takes its name before the left side is generated,
and a left side of one literal avoids that name. Two literals side by side
therefore differ, unless their chain has used up every name there is.
-/

namespace Propositional

/-- A generator: what it may use, and how likely. -/
structure Generator where
  connectives : List Connective := Connective.all
  /-- The chance that a literal is negated. -/
  negation : Chance := .fifth
  /-- The weight of continuing a chain when names are short. -/
  chainWeight : UInt32 := 1
  /-- The weight of every other choice of a connective. -/
  usualWeight : UInt32 := 4
  deriving DecidableEq

/-- The generator with another probability of negated literals. -/
def Generator.withNegation (generator : Generator) (p : Float) :
    Except ProbabilityError Generator := do
  return { generator with negation := ← Chance.ofFloat p }

/-- Why there is no formula to generate. -/
inductive GeneratorError where
  | noLeaves
  | noVariables
  | noConnectives
  /-- The source ran out of patience. -/
  | exhausted
  deriving DecidableEq

/-- What is wrong, in words. -/
def GeneratorError.message : GeneratorError → String
  | noLeaves => "Cannot generate an expression with no leaves"
  | noVariables => "Cannot generate an expression without variables"
  | noConnectives => "Cannot generate an expression without operators"
  | exhausted => "Cannot generate an expression from these random words"

/-- The names that a generator draws from. There is at least one. -/
structure Pool where
  names : Array String
  size_pos : 0 < names.size

namespace Pool

/-- The names of a list, in order and each once, if there are any. -/
def ofList? (names : List String) : Option Pool :=
  if h : 0 < (Names.ofList names).size then some ⟨Names.ofList names, h⟩ else none

/-- The names that are not excluded. -/
def available (pool : Pool) (excluded : List String) : List String :=
  pool.names.toList.filter fun name => !excluded.contains name

/-- A name that is not excluded, or any name if all are. -/
def pick (pool : Pool) (excluded : List String) (s : Source) : String × Source :=
  match s.choose? (pool.available excluded) with
  | some chosen => chosen
  | none =>
    let (i, s) := s.below pool.names.size pool.size_pos
    (pool.names[i], s)

end Pool

namespace Generator

/-- A literal of a name; its mark is drawn. -/
def literal (generator : Generator) (name : String) (s : Source) : Formula × Source :=
  let (negated, s) := s.flip generator.negation
  (.literal name negated, s)

/-- The connectives to choose from with their weights, under a parent, with so many names available
and so many leaves to generate. Continuing an idempotent parent is left out when fewer than two
names are available, unless nothing else would remain. -/
def candidates (generator : Generator) (parent : Option Connective) (available leaves : Nat) :
    List (Connective × UInt32) :=
  let weighted := generator.connectives.map fun op =>
    (op, if parent = some op ∧ op.isIdempotent ∧ available < leaves then generator.chainWeight
      else generator.usualWeight)
  match parent with
  | none => weighted
  | some op =>
    if op.isIdempotent ∧ available < 2 then
      match weighted.filter fun candidate => candidate.1 != op with
      | [] => [(op, 1)]
      | others => others
    else weighted

/-- Whether a side belongs to a chain of the connective above it, so that its names are used up. -/
def extendsChain (op : Connective) (f : Formula) : Bool :=
  op.isIdempotent && (f.isLiteral || f.connective? == some op)

/-- A formula with so many leaves, and the names that its root's chain uses. Excluded names are
those that the chain of the parent has used. -/
def build (generator : Generator) (pool : Pool) (leaves : Nat) (parent : Option Connective)
    (excluded : List String) (s : Source) : Option ((Formula × List String) × Source) :=
  if h : leaves ≤ 1 then
    let (name, s) := pool.pick excluded s
    let (f, s) := generator.literal name s
    some ((f, [name]), s)
  else do
    let (op, s) ←
      s.chooseWeighted? (generator.candidates parent (pool.available excluded).length leaves)
    let (cut, s) := s.below (leaves - 1) (by omega)
    let leftLeaves := cut.val + 1
    let rightLeaves := leaves - leftLeaves
    let chain := if op.isIdempotent ∧ parent = some op then excluded else []
    if rightLeaves = 1 then
      let (name, s) := pool.pick chain s
      let reserved := if op.isIdempotent then [name] else []
      let chain := reserved ++ chain
      let ((left, leftUsed), s) ← generator.build pool leftLeaves (some op)
        (if leftLeaves = 1 then name :: chain else chain) s
      let leftUsed := if extendsChain op left then leftUsed else []
      let (right, s) := generator.literal name s
      return ((.join op left right, reserved ++ leftUsed), s)
    else
      let ((left, leftUsed), s) ← generator.build pool leftLeaves (some op) chain s
      let leftUsed := if extendsChain op left then leftUsed else []
      let ((right, rightUsed), s) ←
        generator.build pool rightLeaves (some op) (leftUsed ++ chain) s
      let rightUsed := if extendsChain op right then rightUsed else []
      return ((.join op left right, leftUsed ++ rightUsed), s)
termination_by leaves

/-- A random formula with so many leaves over the names of a list, and the source that is left. -/
def generate (generator : Generator) (leaves : Nat) (names : List String) (s : Source) :
    Except GeneratorError (Formula × Source) :=
  if leaves = 0 then .error .noLeaves
  else match Pool.ofList? names with
    | none => .error .noVariables
    | some pool =>
      if generator.connectives.isEmpty then .error .noConnectives
      else match generator.build pool leaves none [] s with
        | some ((f, _), s) => .ok (f, s)
        | none => .error .exhausted

end Generator

end Propositional
