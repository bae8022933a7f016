import Propositional.Connective
import Propositional.Names

/-!
# Propositional — formulas

A formula is a tree of named variables under binary connectives. Negation is a
mark on a node and not a node of its own: it complements the value *after* the
node's own meaning is computed, so negating a formula flips one mark and changes
nothing below the root.

Besides the type this module holds what can be read off a tree without
evaluating it: its marks and children, its three sizes, the names at its
leaves, and which formulas stand within it (`Subformula`).
-/

namespace Propositional

/-- A propositional formula. -/
inductive Formula where
  /-- A variable or, with the mark set, its complement. -/
  | literal (name : String) (negated : Bool)
  /-- Two formulas under a connective; the mark complements the whole. -/
  | binary (op : Connective) (left right : Formula) (negated : Bool)
  deriving DecidableEq

namespace Formula

/-! ## Building formulas -/

/-- The variable of a name. -/
def var (name : String) : Formula := .literal name false

/-- The complement of a variable. -/
def notVar (name : String) : Formula := .literal name true

/-- Two formulas joined by a connective, without a mark. -/
def join (op : Connective) (left right : Formula) : Formula := .binary op left right false

/-- The negation of a formula: its root's mark is flipped. -/
def negate : Formula → Formula
  | literal name negated => literal name (!negated)
  | binary op left right negated => binary op left right (!negated)

/-- The negation if the condition holds, else the formula itself. -/
def negateIf (condition : Bool) (f : Formula) : Formula :=
  if condition then f.negate else f

/-- The formulas of a list joined from the left; nothing if there are none. -/
def joinAll? (op : Connective) : List Formula → Option Formula
  | [] => none
  | f :: fs => some (fs.foldl (join op) f)

@[simp]
theorem negate_literal (name : String) (negated : Bool) :
    (literal name negated).negate = literal name (!negated) := rfl

@[simp]
theorem negate_binary (op : Connective) (left right : Formula) (negated : Bool) :
    (binary op left right negated).negate = binary op left right (!negated) := rfl

@[simp]
theorem negate_negate (f : Formula) : f.negate.negate = f := by
  cases f <;> simp

/-! ## The root -/

/-- The mark at the root. -/
def isNegated : Formula → Bool
  | literal _ negated | binary _ _ _ negated => negated

def isLiteral : Formula → Bool
  | literal .. => true
  | binary .. => false

/-- The connective at the root, if there is one. -/
def connective? : Formula → Option Connective
  | literal .. => none
  | binary op .. => some op

/-- The two formulas below the root, if it is a connective. -/
def children? : Formula → Option (Formula × Formula)
  | literal .. => none
  | binary _ left right _ => some (left, right)

/-- Whether the root is this connective and carries no mark, so that it continues a chain of it. -/
def continues (op : Connective) : Formula → Bool
  | literal .. => false
  | binary op' _ _ negated => !negated && op' == op

/-- Only an unmarked join of the connective continues its chain. -/
theorem continues_eq_true {op : Connective} {f : Formula} :
    f.continues op = true ↔ ∃ left right, f = join op left right := by
  cases f with
  | literal => simp [continues, join]
  -- the two sides are whatever they are, and the mark has to be missing
  | binary op' left right negated => simp [continues, join]; grind

/-! ## Sizes -/

/-- The number of literals. -/
def leafCount : Formula → Nat
  | literal .. => 1
  | binary _ left right _ => left.leafCount + right.leafCount

/-- The number of literals and connectives. -/
def size : Formula → Nat
  | literal .. => 1
  | binary _ left right _ => 1 + left.size + right.size

/-- The number of connectives on the longest way from the root to a literal. -/
def depth : Formula → Nat
  | literal .. => 0
  | binary _ left right _ => 1 + max left.depth right.depth

theorem leafCount_pos (f : Formula) : 0 < f.leafCount := by
  induction f with
  | literal => exact Nat.one_pos
  | binary _ _ _ _ ihl _ => exact Nat.add_pos_left ihl _

/-- A binary tree has one node less than twice its leaves. -/
theorem size_add_one (f : Formula) : f.size + 1 = 2 * f.leafCount := by
  induction f with
  | literal => rfl
  | binary _ _ _ _ ihl ihr => simp only [size, leafCount]; omega

/-- Every level of a binary tree has a leaf to the side. -/
theorem depth_lt_leafCount (f : Formula) : f.depth < f.leafCount := by
  induction f with
  | literal => exact Nat.one_pos
  | binary _ _ _ _ ihl ihr => simp only [depth, leafCount]; omega

theorem depth_binary_lt_succ_iff {op : Connective} {left right : Formula} {negated : Bool}
    {n : Nat} :
    (binary op left right negated).depth < n + 1 ↔ left.depth < n ∧ right.depth < n := by
  simp only [depth]
  omega

@[simp]
theorem leafCount_negate (f : Formula) : f.negate.leafCount = f.leafCount := by
  cases f <;> rfl

@[simp]
theorem depth_negate (f : Formula) : f.negate.depth = f.depth := by
  cases f <;> rfl

/-! ## Leaves -/

/-- The names at the leaves from left to right, put in front of a list. -/
def namesOnto : Formula → List String → List String
  | literal name _, rest => name :: rest
  | binary _ left right _, rest => left.namesOnto (right.namesOnto rest)

/-- The names at the leaves from left to right, repetitions included. -/
def names (f : Formula) : List String := f.namesOnto []

/-- What is put in front of a list does not depend on the list. -/
theorem namesOnto_eq (f : Formula) (rest : List String) :
    f.namesOnto rest = f.names ++ rest := by
  induction f generalizing rest with
  | literal => rfl
  | binary _ left right _ ihl ihr =>
    change left.namesOnto (right.namesOnto rest) = left.namesOnto (right.namesOnto []) ++ rest
    -- both lists are put behind the names of the left side
    rw [ihl, ihl (right.namesOnto []), ihr, List.append_assoc]
    rfl

@[simp]
theorem names_literal (name : String) (negated : Bool) :
    (literal name negated).names = [name] := rfl

@[simp]
theorem names_binary (op : Connective) (left right : Formula) (negated : Bool) :
    (binary op left right negated).names = left.names ++ right.names :=
  namesOnto_eq left right.names

@[simp]
theorem names_negate (f : Formula) : f.negate.names = f.names := by
  cases f <;> simp

/-- The names that occur in a formula, in order and each once. -/
def vocabulary (f : Formula) : Array String := Names.ofList f.names

/-- The vocabulary lists the names at the leaves and no others. -/
theorem mem_vocabulary {f : Formula} {name : String} : name ∈ f.vocabulary ↔ name ∈ f.names :=
  Names.mem_ofList

@[simp]
theorem vocabulary_negate (f : Formula) : f.negate.vocabulary = f.vocabulary := by
  rw [vocabulary, names_negate, vocabulary]

/-- The vocabulary is in order, each name once, wherever the names stand in the formula. -/
theorem ordered_vocabulary (f : Formula) : Names.Ordered f.vocabulary :=
  Names.ordered_ofList f.names

theorem length_names (f : Formula) : f.names.length = f.leafCount := by
  induction f with
  | literal => rfl
  | binary _ _ _ _ ihl ihr => simp [leafCount, ihl, ihr]

end Formula

/-! ## What stands within a formula -/

/-- The first formula stands within the second. -/
inductive Subformula (f : Formula) : Formula → Prop
  | refl : Subformula f f
  | left {op : Connective} {a b : Formula} {negated : Bool} (h : Subformula f a) :
    Subformula f (.binary op a b negated)
  | right {op : Connective} {a b : Formula} {negated : Bool} (h : Subformula f b) :
    Subformula f (.binary op a b negated)

end Propositional
