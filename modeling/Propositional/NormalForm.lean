import Propositional.TruthTable

/-!
# Propositional — canonical normal forms

The conjunctive normal form has one clause for every falsifying row, the clause
that is false at exactly that row; the disjunctive one has a term for every
satisfying row. Both are read off the truth table, so they depend on nothing
else.

A tautology has no falsifying row and a contradiction no satisfying one. There
is no constant to stand for the empty join; in these cases the result has one
group `v ∨ ¬v` (or `v ∧ ¬v`) for every variable, which keeps the shape, the
value and the variables.
-/

namespace Propositional

namespace NormalForm

/-- The value of the rows that a form has groups for. -/
def groupedValue : NormalForm → Bool
  | cnf => false
  | dnf => true

/-- The literals of the group of a row, in the order of the names: a clause denies each value of
its row, a term affirms it. -/
def literalsAt (form : NormalForm) (row : Assignment) : List Formula :=
  row.pairs.map fun (name, value) => .literal name (value ^^ form.groupedValue)

/-- The group of a row: the join of its literals. There is none over no names. -/
def groupAt? (form : NormalForm) (row : Assignment) : Option Formula :=
  Formula.joinAll? form.inner (form.literalsAt row)

/-- The group of a name that no row tells apart: the name joined with its complement. -/
def trivialGroup (form : NormalForm) (name : String) : Formula :=
  .join form.inner (.var name) (.notVar name)

/-- The groups for the rows of a table, or trivial groups for its names if no row has one. -/
def groups (form : NormalForm) (t : TruthTable) : List Formula :=
  match (t.rowsWith form.groupedValue).filterMap form.groupAt? with
  | [] => t.names.toList.map form.trivialGroup
  | gs => gs

end NormalForm

namespace Formula

/-- The canonical normal form of a formula. A formula has a name, hence its table a group, so that
the formula itself is never the answer. -/
def normalize (form : NormalForm) (f : Formula) : Except TooManyVariables Formula := do
  let t ← f.truthTable
  return (joinAll? form.outer (form.groups t)).getD f

/-- Literals joined by one connective, without marks on the connective. -/
def isGroupOf (op : Connective) : Formula → Bool
  | literal .. => true
  | binary op' left right negated =>
    (!negated && op' == op) && (left.isGroupOf op && right.isGroupOf op)

/-- Groups of the inner connective joined by the outer one. -/
def isNormal (form : NormalForm) : Formula → Bool
  | literal .. => true
  | binary op left right negated =>
    if !negated && op == form.outer then left.isNormal form && right.isNormal form
    else (binary op left right negated).isGroupOf form.inner

end Formula

end Propositional
