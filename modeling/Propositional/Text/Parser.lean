import Propositional.Formula
import Propositional.Text.Parenthesis
import Propositional.Text.ParseError

/-!
# Propositional — reading a formula

The grammar has no precedence. An expression is an operand, perhaps negated, and
after it perhaps an operator with all the rest as its right side:

* `expr := NOT? operand (OP expr)?`
* `operand := VARIABLE | "(" expr ")"`

The reader works on ranges of the token list: an expression in parentheses is
the range up to the partner of the opening one, and it must fill its range. Each
operator and each opening parenthesis leads one level deeper. The levels that
are left are what the recursion counts down, so that reading ends on every text,
and an operand with no level left is too deep.
-/

namespace Propositional

/-- A text cut into tokens, with the partners of its parentheses and its number of characters. -/
structure Reader where
  tokens : Array Token
  partners : Array (Option Nat)
  length : Nat

namespace Reader

open ParseError

/-- A text made ready for reading. -/
def ofText (text : String) : Reader :=
  let tokens := Token.ofText text
  ⟨tokens, Token.partners tokens, text.length⟩

/-- The token at a place, if the range reaches beyond it. -/
def peek (r : Reader) (stop place : Nat) : Option Token :=
  if place < stop then r.tokens[place]? else none

/-- Where a place is in the text; places behind the last token are at its end. -/
def offset (r : Reader) (place : Nat) : Nat :=
  match r.tokens[place]? with
  | some token => token.offset
  | none => r.length

/-- Whether a negation stands at a place, and the place where the operand is due. -/
def negation (r : Reader) (stop place : Nat) : Bool × Nat :=
  match r.peek stop place with
  | some ⟨.negation, _, _⟩ => (true, place + 1)
  | _ => (false, place)

/-- The operand at a place and the place behind it; `expr` reads what stands in parentheses. -/
def operand (r : Reader) (expr : Nat → Nat → Except Cause (Formula × Nat)) (stop place : Nat) :
    Except Cause (Formula × Nat) :=
  match r.peek stop place with
  | none => .error (.missingOperand (r.offset stop))
  | some ⟨.name, name, _⟩ => .ok (.var name, place + 1)
  | some ⟨.opening, _, _⟩ =>
    match r.partners[place]? with
    | some (some close) => do
      let (inner, _) ← expr close (place + 1)
      return (inner, close + 1)
    | _ => .error .unclosedParenthesis
  | some ⟨_, text, offset⟩ => .error (.unexpected text offset)

/-- What follows an operand: nothing, or an operator and the rest, which `expr` reads. -/
def chain (r : Reader) (expr : Nat → Nat → Except Cause (Formula × Nat)) (first : Formula)
    (stop place : Nat) : Except Cause (Formula × Nat) :=
  match r.peek stop place with
  | none => .ok (first, place)
  | some ⟨.connective op, _, _⟩ => do
    let (rest, place) ← expr stop (place + 1)
    return (.join op first rest, place)
  | some ⟨_, text, offset⟩ => .error (.missingOperator text offset)

/-- The expression from a place up to before `stop`, and the place it reaches. -/
def expr (r : Reader) : (levels stop place : Nat) → Except Cause (Formula × Nat)
  | 0, _, place => .error (.tooDeep (r.offset place))
  | levels + 1, stop, place => do
    let (negated, place) := r.negation stop place
    let (first, place) ← r.operand (r.expr levels) stop place
    r.chain (r.expr levels) (first.negateIf negated) stop place

end Reader

/-- Reads a formula. -/
def Formula.parse (text : String) : Except ParseError Formula :=
  let r := Reader.ofText text
  match r.expr (maxLevel + 1) r.tokens.size 0 with
  | .ok (f, _) => .ok f
  | .error cause => .error ⟨text, cause⟩

end Propositional
