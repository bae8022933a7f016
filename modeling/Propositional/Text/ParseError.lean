/-!
# Propositional — what is wrong with a text

The reasons why a text is no formula, the place each points at, and their
wording. Places are numbers of characters before the place.
-/

namespace Propositional

/-- The deepest level at which an operand may stand. A pair of parentheses is a level, and so is
each earlier operator of the same chain. -/
def maxLevel : Nat := 256

/-- Why reading stopped. -/
inductive ParseError.Cause where
  /-- An operand was due, and the expression ended. -/
  | missingOperand (offset : Nat)
  /-- An operand was due, and something else stood there. -/
  | unexpected (token : String) (offset : Nat)
  /-- An operator was due, and something else stood there. -/
  | missingOperator (found : String) (offset : Nat)
  /-- A parenthesis was opened and is not closed. -/
  | unclosedParenthesis
  /-- An operand stood below the deepest level. -/
  | tooDeep (offset : Nat)
  deriving DecidableEq

/-- The error of a text that is no formula. -/
structure ParseError where
  source : String
  cause : ParseError.Cause
  deriving DecidableEq

namespace ParseError

/-- The place an error points at, if it points at one. -/
def Cause.offset? : Cause → Option Nat
  | missingOperand offset | unexpected _ offset | missingOperator _ offset
  | tooDeep offset => some offset
  | unclosedParenthesis => none

/-- The spelling of the token an error is about, if it is about one. -/
def Cause.token? : Cause → Option String
  | unexpected token _ | missingOperator token _ => some token
  | missingOperand _ | unclosedParenthesis | tooDeep _ => none

/-- What is wrong, in words. -/
def message (e : ParseError) : String :=
  match e.cause with
  | .missingOperand offset =>
    s!"expected a variable or '(' at offset {offset} in `{e.source}`"
  | .unexpected token offset => s!"unexpected `{token}` at offset {offset} in `{e.source}`"
  | .missingOperator found offset =>
    s!"expected an operator but found `{found}` at offset {offset} in `{e.source}`"
  | .unclosedParenthesis => s!"unmatched parenthesis in `{e.source}`"
  | .tooDeep offset => s!"expression nests deeper than {maxLevel} levels at offset {offset}"

end ParseError

end Propositional
