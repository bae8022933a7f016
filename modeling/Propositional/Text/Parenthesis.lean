import Propositional.Text.Token

/-!
# Propositional — matching parentheses

One pass over the tokens finds the partner of every opening parenthesis. The
pass keeps the openings that still wait, the innermost first; a closing
parenthesis ends the wait of the first of them.
-/

namespace Propositional.Token

/-- Matches the parentheses of the tokens from a place on. The openings that wait are given from
the innermost outwards, and partners found are entered at the place of the opening. -/
def matchFrom : List Token → (place : Nat) → (waiting : List Nat) → Array (Option Nat) →
    Array (Option Nat)
  | [], _, _, partners => partners
  | token :: rest, place, waiting, partners =>
    match token.kind, waiting with
    | .opening, waiting => matchFrom rest (place + 1) (place :: waiting) partners
    | .closing, start :: waiting =>
      matchFrom rest (place + 1) waiting (partners.setIfInBounds start (some place))
    | _, waiting => matchFrom rest (place + 1) waiting partners

/-- For every place, the place of the closing parenthesis if a matched opening one stands there. -/
def partners (tokens : Array Token) : Array (Option Nat) :=
  matchFrom tokens.toList 0 [] (Array.replicate tokens.size none)

/-- The pass enters partners and adds no entry. -/
theorem size_matchFrom (tokens : List Token) (place : Nat) (waiting : List Nat)
    (partners : Array (Option Nat)) :
    (matchFrom tokens place waiting partners).size = partners.size := by
  fun_induction matchFrom tokens place waiting partners <;> simp_all

/-- There is an entry for every token. -/
theorem size_partners (tokens : Array Token) : (partners tokens).size = tokens.size := by
  rw [partners, size_matchFrom, Array.size_replicate]

/-- Tokens in which every parenthesis is matched. -/
inductive Balanced : List Token → Prop
  | nil : Balanced []
  | other {tokens : List Token} (token : Token) (hOpening : token.kind ≠ .opening)
    (hClosing : token.kind ≠ .closing) (h : Balanced tokens) : Balanced (token :: tokens)
  | pair {inner tokens : List Token} (opening closing : Token)
    (hOpening : opening.kind = .opening) (hClosing : closing.kind = .closing)
    (hInner : Balanced inner) (h : Balanced tokens) :
    Balanced (opening :: inner ++ closing :: tokens)

/-- Tokens are balanced if two balanced parts make them up. -/
theorem Balanced.append {front back : List Token} (h : Balanced front) (h' : Balanced back) :
    Balanced (front ++ back) := by
  induction h with
  | nil => exact h'
  | other token ho hc _ ih => exact .other token ho hc ih
  | pair opening closing ho hc hInner _ _ ih =>
    rw [List.append_assoc, List.cons_append]
    exact .pair opening closing ho hc hInner ih

end Propositional.Token
