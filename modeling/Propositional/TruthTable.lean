import Propositional.Assignment

/-!
# Propositional — truth tables

A table lists the value of a formula on every row of its variables, so its
length doubles with each variable. Formulas with more than `maxVariables`
variables are refused before any row is visited.

`Formula.verdict` answers the two questions that need no full table, whether
some row satisfies the formula and whether some row falsifies it, and stops as
soon as both are settled.
-/

namespace Propositional

/-- The largest number of variables over which rows are enumerated. -/
def maxVariables : Nat := 16

/-- The error of a formula, or of formulas taken together, with too many variables: their number
and the largest that is allowed. -/
structure TooManyVariables where
  count : Nat
  limit : Nat
  deriving DecidableEq

/-- What is wrong, in words. -/
def TooManyVariables.message (e : TooManyVariables) : String :=
  s!"expression has {e.count} variables, at most {e.limit} are supported"

/-- The names themselves, if their rows may be enumerated. -/
def enumerable (names : Array String) : Except TooManyVariables (Array String) :=
  if names.size > maxVariables then .error ⟨names.size, maxVariables⟩ else .ok names

/-! ## Tables -/

/-- The values of a formula on the rows of its variables, in the order of the rows. -/
structure TruthTable where
  names : Array String
  values : List Bool
  deriving DecidableEq

namespace TruthTable

/-- The rows with their values. -/
def rows (t : TruthTable) : List (Assignment × Bool) := (Assignment.rows t.names).zip t.values

/-- The rows on which the value is the one asked for. -/
def rowsWith (t : TruthTable) (value : Bool) : List Assignment :=
  (t.rows.filter fun row => row.2 == value).map Prod.fst

/-- The number of satisfying rows. -/
def satisfyingCount (t : TruthTable) : Nat := t.values.count true

/-- Whether every row satisfies the formula. -/
def isTautology (t : TruthTable) : Bool := t.values.all (· == true)

/-- Whether no row satisfies the formula. -/
def isContradiction (t : TruthTable) : Bool := t.values.all (· == false)

/-- A text set flush right in a column; a column too narrow for it does not cut it. -/
def flushRight (width : Nat) (text : String) : String :=
  String.ofList (List.replicate (width - text.length) ' ') ++ text

/-- One line of the grid: the cells, each under its name, and the last column. -/
def gridLine (names : Array String) (cells : List String) (last : String) : String :=
  String.join ((names.toList.zip cells).map fun (name, cell) => flushRight name.length cell ++ " ")
    ++ "| " ++ last ++ "\n"

/-- The table as text: a heading with the names, then a line for every row. Every column is as
wide as its name. -/
def grid (t : TruthTable) : String :=
  gridLine t.names t.names.toList "out" ++
    String.join (t.rows.map fun (row, value) =>
      gridLine t.names (row.pairs.map fun pair => digit pair.2) (digit value))

end TruthTable

/-- The truth table of a formula over its variables. -/
def Formula.truthTable (f : Formula) : Except TooManyVariables TruthTable := do
  let names ← enumerable f.vocabulary
  return ⟨names, (Assignment.rows names).map fun row => f.eval row.value⟩

/-! ## Verdicts -/

/-- The number of the first row that satisfies a formula and of the first that falsifies it. -/
structure Verdict where
  satisfying : Option Nat
  falsifying : Option Nat
  deriving DecidableEq

namespace Verdict

def isSatisfiable (p : Verdict) : Bool := p.satisfying.isSome

def isFalsifiable (p : Verdict) : Bool := p.falsifying.isSome

/-- No row falsifies the formula. -/
def isTautology (p : Verdict) : Bool := !p.isFalsifiable

/-- No row satisfies the formula. -/
def isContradiction (p : Verdict) : Bool := !p.isSatisfiable

/-- Enters a row under the value found there, unless an earlier row is entered already. -/
def enter (p : Verdict) (value : Bool) (index : Nat) : Verdict :=
  if value then { p with satisfying := p.satisfying <|> some index }
  else { p with falsifying := p.falsifying <|> some index }

/-- Whether later rows cannot change the verdict any more. -/
def isSettled (p : Verdict) : Bool := p.isSatisfiable && p.isFalsifiable

/-- Enters row after row until the verdict is settled. -/
def scan (value : Assignment → Bool) : List Assignment → Verdict → Verdict
  | [], p => p
  | row :: rows, p =>
    let p := p.enter (value row) row.index
    if p.isSettled then p else scan value rows p

end Verdict

/-- The verdict on a formula over the rows of its variables. -/
def Formula.verdict (f : Formula) : Except TooManyVariables Verdict := do
  let names ← enumerable f.vocabulary
  return Verdict.scan (fun row => f.eval row.value) (Assignment.rows names) ⟨none, none⟩

end Propositional
