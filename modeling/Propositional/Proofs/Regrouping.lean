import Propositional.Proofs.Restatement

/-!
# Propositional — regrouped chains

A chain is made of unmarked joins of one associative connective. Its text does not show how it
is grouped, and a reader groups it to the right. `Formula.regroup` does the same to every chain of
a formula: the operands keep their order and every mark stays where it is.

What is to be known of a chain is known by
going along it, operand by operand (`Formula.chain_induction`). Grafting is associative where
chains are concerned (`Formula.graft_graft`): a chain can be extended by another
chain at once or operand by operand. So it does not matter in which order a chain is
taken apart, and that is what reading a chain from left to right relies on.

Main results:

* `Formula.restates_regroup` — the names stay in their order and the values are the same.
* `Formula.groupsRight_regroup`, `Formula.regroup_eq_self` — no chain of the result is grouped to
  the left, and a formula of which this is true already is its own result.
-/

namespace Propositional.Formula

/-! ## Grouping to the right -/

/-- Joins a chain that is grouped to the right with one more operand at its end, or rather with the
chain that starts there. -/
def graft (op : Connective) : Formula → Formula → Formula
  | binary op' a b false, tail =>
    if op' = op then join op a (b.graft op tail) else join op (join op' a b) tail
  | f, tail => join op f tail

/-- Groups every chain to the right. -/
def regroup : Formula → Formula
  | literal name negated => literal name negated
  | binary op a b negated =>
    if op.isAssociative then (a.regroup.graft op b.regroup).negateIf negated
    else binary op a.regroup b.regroup negated

/-- A tail on the last operand of an associative chain counts as if it stood beside the chain. -/
theorem eval_graft {op : Connective} (hOp : op.isAssociative = true) (f tail : Formula)
    (v : Valuation) : (f.graft op tail).eval v = op.apply (f.eval v) (tail.eval v) := by
  induction f with
  | literal name negated => simp [graft]
  | binary op' a b negated _ ihb =>
    cases negated with
    | true => simp [graft]
    | false =>
      by_cases h : op' = op
      · subst h
        rw [graft, if_pos rfl, eval_join, ihb, ← Connective.apply_assoc hOp]
        simp [eval]
      · rw [graft, if_neg h, eval_join]
        rfl

/-- Regrouping keeps the value. -/
@[simp]
theorem eval_regroup (f : Formula) (v : Valuation) : f.regroup.eval v = f.eval v := by
  induction f with
  | literal name negated => rfl
  | binary op a b negated iha ihb =>
    by_cases hOp : op.isAssociative = true
    · simp [regroup, hOp, eval_graft hOp, iha, ihb, eval]
    · simp [regroup, hOp, eval, iha, ihb]

variable {op op' : Connective} {f a b tail : Formula} {negated : Bool}

/-! ## Attaching an operand -/

/-- Joins a formula with a tail as a reader does: a chain of the connective is continued if the
connective is associative. -/
def attach (op : Connective) (f tail : Formula) : Formula :=
  if op.isAssociative then f.graft op tail else join op f tail

/-- What a formula is read as is what its sides are read as, attached and marked. -/
theorem regroup_binary :
    (binary op a b negated).regroup = (attach op a.regroup b.regroup).negateIf negated := by
  rw [regroup, attach]
  by_cases hAssoc : op.isAssociative = true
  · rw [if_pos hAssoc, if_pos hAssoc]
  · rw [if_neg hAssoc, if_neg hAssoc]
    cases negated <;> rfl

/-- Only an unmarked join of the same connective is continued. -/
theorem graft_of_not_continues (h : f.continues op = false) : f.graft op tail = join op f tail := by
  cases f with
  | literal => rfl
  | binary op' a b negated =>
    cases negated with
    | true => rfl
    | false =>
      -- without a mark, it is another connective that ends the chain
      have hNe : op' ≠ op := by
        rintro rfl
        simp [continues] at h
      rw [graft, if_neg hNe]
      rfl

theorem graft_join : (join op a b).graft op tail = join op a (b.graft op tail) := by
  rw [join, graft, if_pos rfl]

/-- A graft is an unmarked join of the connective. -/
theorem exists_graft_eq_join (op : Connective) (f tail : Formula) :
    ∃ a b, f.graft op tail = join op a b := by
  by_cases hContinues : f.continues op = true
  · obtain ⟨a, b, rfl⟩ := continues_eq_true.mp hContinues
    exact ⟨a, b.graft op tail, graft_join⟩
  · rw [Bool.not_eq_true] at hContinues
    exact ⟨f, tail, graft_of_not_continues hContinues⟩

/-- **Induction along a chain.** A formula is one operand of a chain, or it links an operand to the
rest of the chain. -/
theorem chain_induction (op : Connective) {motive : Formula → Prop}
    (operand : ∀ f, f.continues op = false → motive f)
    (link : ∀ a b, motive b → motive (join op a b)) (f : Formula) : motive f := by
  induction f with
  | literal name negated => exact operand _ rfl
  | binary op' a b negated _ ihb =>
    -- only the right side of a link belongs to the induction; the left side is any formula
    by_cases hContinues : (binary op' a b negated).continues op = true
    · obtain ⟨a', b', hEq⟩ := continues_eq_true.mp hContinues
      cases hEq
      exact link a b ihb
    · exact operand _ (Bool.not_eq_true _ ▸ hContinues)

/-- A chain that is continued by a chain is continued by all of its operands. -/
theorem graft_graft (op : Connective) (f g tail : Formula) :
    (f.graft op g).graft op tail = f.graft op (g.graft op tail) := by
  induction f using chain_induction op with
  | operand f hOperand =>
    rw [graft_of_not_continues hOperand, graft_of_not_continues hOperand, graft_join]
  | link a b ih =>
    -- a chain passes both tails on to its right side
    rw [graft_join, graft_join, graft_join, ih]

/-- Attaching is associative under an associative connective. -/
theorem attach_attach (hAssoc : op.isAssociative = true) (f g tail : Formula) :
    attach op (attach op f g) tail = attach op f (attach op g tail) := by
  simp only [attach, if_pos hAssoc]
  exact graft_graft op f g tail

/-- What is attached is joined by the connective, without a mark. -/
theorem exists_attach_eq_join (op : Connective) (f tail : Formula) :
    ∃ left right, attach op f tail = join op left right := by
  unfold attach
  split
  next => exact exists_graft_eq_join op f tail
  next => exact ⟨f, tail, rfl⟩

/-- The mark of a formula is the mark of what it is read as. -/
theorem regroup_eq_binary {left right : Formula}
    (h : attach op a.regroup b.regroup = join op left right) :
    (binary op a b negated).regroup = binary op left right negated := by
  rw [regroup_binary, h]
  cases negated <;> rfl

/-! ## Names and values -/

/-- The tail has its names behind those of the chain. -/
@[simp]
theorem names_graft (op : Connective) (f tail : Formula) :
    (f.graft op tail).names = f.names ++ tail.names := by
  induction f using chain_induction op with
  | operand f hOperand => rw [graft_of_not_continues hOperand, join, names_binary]
  | link a b ih =>
    rw [graft_join, join, names_binary, ih, join, names_binary, List.append_assoc]

/-- Regrouping keeps the names in their order. -/
@[simp]
theorem names_regroup (f : Formula) : f.regroup.names = f.names := by
  induction f with
  | literal name negated => rfl
  | binary op a b negated iha ihb =>
    have hAttach : (attach op a.regroup b.regroup).names = a.names ++ b.names := by
      unfold attach
      split
      · rw [names_graft, iha, ihb]
      · rw [join, names_binary, iha, ihb]
    obtain ⟨left, right, hJoin⟩ := exists_attach_eq_join op a.regroup b.regroup
    rw [regroup_eq_binary hJoin, names_binary, names_binary, ← hAttach, hJoin, join, names_binary]

theorem restates_regroup (f : Formula) : f.regroup.Restates f := by
  constructor
  · exact f.eval_regroup
  · intro name
    rw [names_regroup]

/-! ## Chains to the right -/

/-- No associative connective continues a chain on its left. -/
def GroupsRight (f : Formula) : Prop :=
  ∀ op a b negated, op.isAssociative = true → Subformula (binary op a b negated) f →
    a.continues op = false

theorem groupsRight_literal (name : String) (negated : Bool) :
    (literal name negated).GroupsRight := by
  intro op a b negated _ h
  cases h

/-- Grouping to the right is a matter of the root and of either side. -/
theorem groupsRight_binary : (binary op a b negated).GroupsRight ↔
    (op.isAssociative = true → a.continues op = false) ∧ a.GroupsRight ∧ b.GroupsRight := by
  constructor
  · intro h
    refine ⟨fun hAssoc => h op a b negated hAssoc .refl, ?_, ?_⟩
    · exact fun op' a' b' negated' hAssoc hSub => h op' a' b' negated' hAssoc (.left hSub)
    · exact fun op' a' b' negated' hAssoc hSub => h op' a' b' negated' hAssoc (.right hSub)
  · rintro ⟨hRoot, ha, hb⟩ op' a' b' negated' hAssoc hSub
    -- a node of the whole is the root, or a node of a side
    cases hSub with
    | refl => exact hRoot hAssoc
    | left hSub => exact ha op' a' b' negated' hAssoc hSub
    | right hSub => exact hb op' a' b' negated' hAssoc hSub

/-- A tail that groups to the right may be put on what does. -/
theorem groupsRight_graft (hf : f.GroupsRight) (hTail : tail.GroupsRight) :
    (f.graft op tail).GroupsRight := by
  induction f using chain_induction op with
  | operand f hOperand =>
    rw [graft_of_not_continues hOperand]
    exact groupsRight_binary.mpr ⟨fun _ => hOperand, hf, hTail⟩
  | link a b ih =>
    obtain ⟨hRoot, ha, hb⟩ := groupsRight_binary.mp hf
    rw [graft_join]
    exact groupsRight_binary.mpr ⟨hRoot, ha, ih hb⟩

/-- Regrouping groups every chain to the right. -/
theorem groupsRight_regroup (f : Formula) : f.regroup.GroupsRight := by
  induction f with
  | literal name negated => exact groupsRight_literal name negated
  | binary op a b negated iha ihb =>
    have hAttach : (attach op a.regroup b.regroup).GroupsRight := by
      unfold attach
      split
      next => exact groupsRight_graft iha ihb
      next hAssoc => exact groupsRight_binary.mpr ⟨fun h => absurd h hAssoc, iha, ihb⟩
    obtain ⟨left, right, hJoin⟩ := exists_attach_eq_join op a.regroup b.regroup
    rw [hJoin] at hAttach
    rw [regroup_eq_binary hJoin]
    -- the mark at the root is no part of what grouping is about
    exact groupsRight_binary.mpr (groupsRight_binary.mp hAttach)

/-- Where every chain is grouped to the right there is nothing to do. -/
theorem regroup_eq_self (h : f.GroupsRight) : f.regroup = f := by
  induction f with
  | literal name negated => rfl
  | binary op a b negated iha ihb =>
    obtain ⟨hRoot, ha, hb⟩ := groupsRight_binary.mp h
    -- the left side does not go on the chain, so attaching joins
    have hAttach : attach op a b = join op a b := by
      unfold attach
      split
      next hAssoc => exact graft_of_not_continues (hRoot hAssoc)
      next => rfl
    rw [regroup_binary, iha ha, ihb hb, hAttach]
    cases negated <;> rfl

end Propositional.Formula
