import Propositional.Names
import Propositional.Valuation

/-!
# Propositional — assignments as numbers

For names in order, an assignment is a number: bit `i` is the value of the
`i`-th name. Row `0` makes every name false, and bits beyond the last name are
ignored. `Assignment.encode` goes the other way, from a valuation to the number
of its row.
-/

namespace Propositional

/-- A row: names in order and the number that holds their values. -/
structure Assignment where
  names : Array String
  index : Nat
  deriving DecidableEq

/-- How a truth value is written in a row. -/
def digit (value : Bool) : String := if value then "1" else "0"

namespace Assignment

/-- The value at a place of the list of names. -/
def bit (row : Assignment) (i : Nat) : Bool := row.index.testBit i

/-- The value of a name; a name that is not listed is false. -/
def value (row : Assignment) : Valuation := fun name =>
  match Names.position? row.names name with
  | some i => row.bit i
  | none => false

/-- The listed names with their values, in order. -/
def pairs (row : Assignment) : List (String × Bool) :=
  row.names.toList.zipIdx.map fun (name, i) => (name, row.bit i)

/-- The row in braces, such as `{A=1, B=0}`. -/
def toString (row : Assignment) : String :=
  "\x7b" ++ ", ".intercalate (row.pairs.map fun (name, value) => name ++ "=" ++ digit value) ++
    "\x7d"

/-- The number whose bits are the values of the listed names. -/
def encode (names : List String) (v : Valuation) : Nat :=
  names.foldr (fun name code => (v name).toNat + 2 * code) 0

/-- The rows numbered from `skip`, at most `take` of them, without building the others. -/
def slice (names : Array String) (skip take : Nat) : List Assignment :=
  (List.range' skip (min take ((1 <<< names.size) - skip))).map (⟨names, ·⟩)

/-- Every row, in the order of the numbers. -/
def rows (names : Array String) : List Assignment :=
  (List.range (1 <<< names.size)).map (⟨names, ·⟩)

/-- The first name has the lowest bit. -/
theorem encode_cons (name : String) (names : List String) (v : Valuation) :
    encode (name :: names) v = (v name).toNat + 2 * encode names v := rfl

/-- The number of a valuation is that of a row. -/
theorem encode_lt (names : List String) (v : Valuation) :
    encode names v < 1 <<< names.length := by
  rw [Nat.one_shiftLeft]
  induction names with
  | nil => exact Nat.one_pos
  | cons name names ih =>
    have := Bool.toNat_le (v name)
    simp only [encode_cons, List.length_cons, Nat.pow_succ]
    omega

/-- Encoding puts the value of the `i`-th name into bit `i`. -/
theorem testBit_encode (names : List String) (v : Valuation) (i : Nat) (h : i < names.length) :
    (encode names v).testBit i = v names[i] := by
  induction names generalizing i with
  | nil => simp at h
  | cons name names ih =>
    rw [encode_cons]
    cases i with
    | zero => cases h' : v name <;> simp [h', Nat.testBit_zero, Nat.add_mul_mod_self_left]
    | succ i =>
      -- the bit of the first name is shifted out
      have : ((v name).toNat + 2 * encode names v) / 2 = encode names v := by
        have := Bool.toNat_le (v name)
        omega
      rw [Nat.testBit_succ, this]
      exact ih i (by simpa using h)

/-- A slice is what dropping and taking leave of all rows. -/
theorem slice_eq_drop_take (names : Array String) (skip take : Nat) :
    slice names skip take = ((rows names).drop skip).take take := by
  apply List.ext_getElem
  · simp [slice, rows]
  · intro i _ _
    simp [slice, rows]

end Assignment

end Propositional
