import Mathlib.Data.Finset.Prod
import Mathlib.Data.Set.Finite.Basic
import Mathlib.Logic.Relation
import Propositional.Proofs.Obstacles

/-!
# Propositional — the way of a reader

A reader goes from call to call: each call for an expression reads a range of places at a level
and makes calls for the expression in parentheses and for what follows an operator
(`Reader.Makes`). The reader looks at its tokens without asking whether they are there, and behind
an expression in parentheses it jumps to the place after the closing one without asking where it
is. This module shows that it need not ask.

* What a call answers is put together from the answers of the calls that it makes, and from no
  others (`Reader.body_eq_of_makes`). So the calls that are reached from the first one are all
  there are.
* What is known where an expression is read (`Reader.Call`) is known at every call that is reached
  (`Reader.Reaches.exists_call`): each of the two kinds of calls keeps it, and so does a chain of
  them.

From what is known there it follows that a call never leaves its range, that the range never
leaves the tokens, and that every call starts behind the one that makes it, so that they are
nested no deeper than there are tokens (`Reader.StaysWithin`).

Main result: `Reader.reading_stays_within`.
-/

namespace Propositional

open Token ParseError

/-- A call for an expression: its level, where its range ends and where it begins. -/
structure Visit where
  level : Nat
  stop : Nat
  place : Nat
  deriving DecidableEq

/-- Each level was opened by a token. -/
theorem Awaits.level_le {level : Nat} {opened : Option Nat} {front : List Token}
    (h : Awaits level opened front) : level ≤ front.length := by
  induction h with
  | start => exact Nat.le_refl _
  | opening | operator =>
    simp only [List.length_append, List.length_cons, List.length_nil]
    omega

namespace Reader

variable {r : Reader} {v v' : Visit} {stop place : Nat}
variable {expr : Nat → Nat → Except Cause (Formula × Nat)}

/-! ## Calls -/

/-- What a call answers. At its level so many levels are left. -/
def answer (r : Reader) (v : Visit) : Except Cause (Formula × Nat) :=
  r.expr (maxLevel + 1 - v.level) v.stop v.place

/-- An expression, if `expr` reads those that are one level deeper. -/
def body (r : Reader) (expr : Nat → Nat → Except Cause (Formula × Nat)) (stop place : Nat) :
    Except Cause (Formula × Nat) := do
  let (negated, place) := r.negation stop place
  let (first, place) ← r.operand expr stop place
  r.chain expr (first.negateIf negated) stop place

/-- The calls that a call makes itself. -/
inductive Makes (r : Reader) (v : Visit) : Visit → Prop
  /-- An operand in parentheses is due, and they are matched. -/
  | inside {text : String} {offset close : Nat} (hLevel : v.level ≤ maxLevel)
    (hPeek : r.peek v.stop (r.negation v.stop v.place).2 = some ⟨.opening, text, offset⟩)
    (hPartner : r.partners[(r.negation v.stop v.place).2]? = some (some close)) :
    Makes r v ⟨v.level + 1, close, (r.negation v.stop v.place).2 + 1⟩
  /-- An operand is read, and an operator follows it. -/
  | behind {op : Connective} {text : String} {offset middle : Nat} {first : Formula}
    (hLevel : v.level ≤ maxLevel)
    (hOperand : r.operand (r.expr (maxLevel - v.level)) v.stop (r.negation v.stop v.place).2 =
      .ok (first, middle))
    (hPeek : r.peek v.stop middle = some ⟨.connective op, text, offset⟩) :
    Makes r v ⟨v.level + 1, v.stop, middle + 1⟩

/-- The calls that are made from the first one on. -/
def Reaches (r : Reader) (v : Visit) : Prop :=
  Relation.ReflTransGen r.Makes ⟨0, r.tokens.size, 0⟩ v

/-- A call is made one level deeper, and by none that is too deep. -/
theorem Makes.level_eq (h : r.Makes v v') : v.level ≤ maxLevel ∧ v'.level = v.level + 1 := by
  cases h with
  | inside hLevel | behind hLevel => exact ⟨hLevel, rfl⟩

/-- Beyond the limit every call is refused. -/
theorem answer_of_lt (h : maxLevel < v.level) :
    r.answer v = .error (.tooDeep (r.offset v.place)) := by
  rw [answer, Nat.sub_eq_zero_of_le h, Reader.expr]

/-- Within the limit a call reads its body, with one level less for the calls it makes. -/
theorem answer_of_le (h : v.level ≤ maxLevel) :
    r.answer v = r.body (r.expr (maxLevel - v.level)) v.stop v.place := by
  rw [answer, Nat.succ_sub h]
  rfl

theorem answer_next (level stop place : Nat) :
    r.answer ⟨level + 1, stop, place⟩ = r.expr (maxLevel - level) stop place := by
  rw [answer, Nat.add_sub_add_right]

/-! ## No other calls -/

/-- An operand asks for an expression only where a parenthesis is opened and matched. -/
theorem operand_congr {expr' : Nat → Nat → Except Cause (Formula × Nat)}
    (h : ∀ text offset close, r.peek stop place = some ⟨.opening, text, offset⟩ →
      r.partners[place]? = some (some close) → expr close (place + 1) = expr' close (place + 1)) :
    r.operand expr stop place = r.operand expr' stop place := by
  unfold operand
  split
  next => rfl
  next => rfl
  -- only here is there a call, for what stands between the parentheses
  next text offset hPeek =>
    split
    next close hPartner => rw [h text offset close hPeek hPartner]
    next => rfl
  next => rfl

/-- What follows an operand is asked for only behind an operator. -/
theorem chain_congr {expr' : Nat → Nat → Except Cause (Formula × Nat)} {first : Formula}
    (h : ∀ op text offset, r.peek stop place = some ⟨.connective op, text, offset⟩ →
      expr stop (place + 1) = expr' stop (place + 1)) :
    r.chain expr first stop place = r.chain expr' first stop place := by
  unfold chain
  split
  next => rfl
  next op text offset hPeek => rw [h op text offset hPeek]
  next => rfl

/-- **A call asks for nothing but the calls that it makes**: whatever else `expr` answers, if it is
right about those, so is the answer. -/
theorem body_eq_of_makes (hLevel : v.level ≤ maxLevel)
    (h : ∀ v', r.Makes v v' → expr v'.stop v'.place = r.answer v') :
    r.body expr v.stop v.place = r.answer v := by
  have hOperand : r.operand expr v.stop (r.negation v.stop v.place).2 =
      r.operand (r.expr (maxLevel - v.level)) v.stop (r.negation v.stop v.place).2 := by
    apply operand_congr
    intro text offset close hPeek hPartner
    rw [h _ (.inside hLevel hPeek hPartner), answer_next]
  rw [answer_of_le hLevel, body, body]
  dsimp only
  rw [hOperand]
  cases hFirst : r.operand (r.expr (maxLevel - v.level)) v.stop (r.negation v.stop v.place).2 with
  | error cause => rfl
  | ok answer =>
    obtain ⟨first, middle⟩ := answer
    -- only now it is known where the chain goes on
    apply chain_congr
    intro op text offset hPeek
    rw [h _ (.behind hLevel hFirst hPeek), answer_next]

/-! ## What is known at every call -/

/-- The operand at the place of a call, if it is read, is an operand of the grammar within the
range. -/
theorem Call.operand {opened : Option Nat} {middle : Nat} {first : Formula} (hWell : r.WellFormed)
    (h : r.Call v.level opened v.place v.stop) (hLevel : v.level ≤ maxLevel)
    (hOperand : r.operand (r.expr (maxLevel - v.level)) v.stop (r.negation v.stop v.place).2 =
      .ok (first, middle)) :
    v.place ≤ middle ∧ r.Spells .operand v.level v.place middle
      (first.negateIf (r.negation v.stop v.place).1) := by
  obtain ⟨hPlace, hStop, hNegate⟩ := negation_sound h.range
  have hReads : r.ReadsRanges (v.level + 1) (r.expr (maxLevel - v.level)) :=
    expr_sound hWell (by omega)
  -- what is read behind the marks is an atom, and with them it is an operand
  obtain ⟨hLe, -, hAtom⟩ := operand_sound hWell hReads hLevel (h.range.rest hPlace hStop) hOperand
  exact ⟨Nat.le_trans hPlace hLe, hNegate _ _ _ hAtom⟩

/-- One call keeps what is known for the calls that it makes, and they start behind it. -/
theorem Call.makes {opened : Option Nat} (hWell : r.WellFormed)
    (h : r.Call v.level opened v.place v.stop) (hMakes : r.Makes v v') :
    v.place < v'.place ∧ v'.stop ≤ v.stop ∧
      ∃ opened', r.Call v'.level opened' v'.place v'.stop := by
  cases hMakes with
  | inside hLevel hPeek hPartner =>
    obtain ⟨hPlace, -, -⟩ := negation_sound h.range
    obtain ⟨hLt, hToken⟩ := peek_eq_some_iff.mp hPeek
    rw [hWell, getElem?_partners_eq_some_iff] at hPartner
    obtain ⟨mark, hMark, hStands, hNext, -⟩ := r.negation_eq v.stop v.place
    -- the range is one of matched parentheses, so the partner lies in it
    have hClose := h.range.close_lt _ _ hPlace hLt hPartner
    exact ⟨Nat.lt_succ_of_le hPlace, Nat.le_of_lt hClose, _,
      h.inside hMark hStands hNext hPartner⟩
  | behind hLevel hOperand hPeek =>
    obtain ⟨hLt, hToken⟩ := peek_eq_some_iff.mp hPeek
    obtain ⟨hLe, hSpells⟩ := h.operand hWell hLevel hOperand
    exact ⟨Nat.lt_succ_of_le hLe, Nat.le_refl _, opened, h.behind hSpells hLt hToken rfl⟩

/-- **What is known of the first call is known of all.** -/
theorem Reaches.exists_call (hWell : r.WellFormed) (h : r.Reaches v) :
    ∃ opened, r.Call v.level opened v.place v.stop := by
  induction h with
  | refl => exact ⟨none, r.call_all⟩
  | tail _ hMakes ih =>
    obtain ⟨opened, hCall⟩ := ih
    exact (hCall.makes hWell hMakes).2.2

/-! ## Within the range -/

/-- A call that answers has read its range to the end. -/
theorem next_eq_stop {f : Formula} {next : Nat} (hWell : r.WellFormed)
    (hRange : r.IsRange v.place v.stop) (h : r.answer v = .ok (f, next)) : next = v.stop := by
  rcases Nat.lt_or_ge maxLevel v.level with hDeep | hShallow
  · -- too deep a call reads nothing
    rw [answer_of_lt hDeep] at h
    cases h
  · have hReads : r.ReadsRanges v.level (r.expr (maxLevel + 1 - v.level)) :=
      expr_sound hWell (by omega)
    exact (hReads _ _ _ _ hRange h).2

/-- What a call neither leaves nor skips. -/
structure StaysWithin (r : Reader) (v : Visit) : Prop where
  /-- The range lies within the tokens, and each level was opened by a token before it. -/
  bounds : v.level ≤ v.place ∧ v.place ≤ v.stop ∧ v.stop ≤ r.tokens.size
  /-- A partner that is entered for a place of the range lies behind the place within the range. -/
  closes_within : ∀ place close, v.place ≤ place → place < v.stop →
    r.partners[place]? = some (some close) → place < close ∧ close < v.stop
  /-- An expression that is read leaves the reader where its range ends. -/
  fills : ∀ f next, r.answer v = .ok (f, next) → next = v.stop
  /-- Behind an expression in parentheses the reader goes one place further than where the
  expression left it, and there stands the closing parenthesis. -/
  jumps : ∀ place close f next, v.place ≤ place → place < v.stop →
    r.partners[place]? = some (some close) →
    r.answer ⟨v.level + 1, close, place + 1⟩ = .ok (f, next) →
    r.operand (r.expr (maxLevel - v.level)) v.stop place = .ok (f, next + 1) ∧
      ∃ token, r.tokens.toList[next]? = some token ∧ token.kind = .closing
  /-- The calls that it makes start behind it and end where it does or before. -/
  advances : ∀ v', r.Makes v v' → v.place < v'.place ∧ v'.stop ≤ v.stop
  /-- It asks for nothing else. -/
  asks : ∀ expr, v.level ≤ maxLevel →
    (∀ v', r.Makes v v' → expr v'.stop v'.place = r.answer v') →
    r.body expr v.stop v.place = r.answer v

/-- An operand in parentheses is read as what stands in them. -/
theorem operand_of_answer {close next level : Nat} {f : Formula} (hWell : r.WellFormed)
    (hMatched : Matched r.tokens.toList place close) (hLt : place < stop)
    (h : r.answer ⟨level + 1, close, place + 1⟩ = .ok (f, next)) :
    r.operand (r.expr (maxLevel - level)) stop place = .ok (f, close + 1) := by
  obtain ⟨⟨kind, text, offset⟩, hToken, hKind⟩ := hMatched.opening
  cases hKind
  -- the reader finds the partner that the grammar has
  have hPartner : r.partners[place]? = some (some close) := by
    rwa [hWell, getElem?_partners_eq_some_iff]
  rw [answer_next] at h
  rw [operand, peek_eq_some_iff.mpr ⟨hLt, hToken⟩]
  simp only [hPartner, h]
  rfl

/-- A call for an expression that is due stays within its bounds. -/
theorem Call.staysWithin {opened : Option Nat} (hWell : r.WellFormed)
    (h : r.Call v.level opened v.place v.stop) : r.StaysWithin v where
  bounds := by
    have hLevel := h.awaits.level_le
    rw [h.length_take] at hLevel
    exact ⟨hLevel, h.range.le, h.range.le_size⟩
  closes_within := by
    intro place close hPlace hStop hPartner
    rw [hWell, getElem?_partners_eq_some_iff] at hPartner
    exact ⟨hPartner.lt, h.range.close_lt place close hPlace hStop hPartner⟩
  fills := fun f next => next_eq_stop hWell h.range
  jumps := by
    intro place close f next hPlace hStop hPartner hAnswer
    rw [hWell, getElem?_partners_eq_some_iff] at hPartner
    -- what stands between the two is a range of its own, and the answer fills it
    have hNext : next = close := next_eq_stop hWell (isRange_of_matched hPartner) hAnswer
    subst hNext
    exact ⟨operand_of_answer hWell hPartner hStop hAnswer, hPartner.closing⟩
  advances := by
    intro v' hMakes
    obtain ⟨hPlace, hStop, -⟩ := h.makes hWell hMakes
    exact ⟨hPlace, hStop⟩
  asks := fun expr => body_eq_of_makes

/-- Only so many calls have their level, their end and their beginning within the tokens. -/
theorem finite_reaches (hWell : r.WellFormed) : {v | r.Reaches v}.Finite := by
  -- a level counts tokens before the place, so it is bounded as the place is
  let places := Finset.range (r.tokens.size + 1)
  let visits := (places ×ˢ places ×ˢ places).image fun p => Visit.mk p.1 p.2.1 p.2.2
  refine visits.finite_toSet.subset ?_
  intro v hReaches
  obtain ⟨opened, hCall⟩ := Reaches.exists_call hWell hReaches
  obtain ⟨hLevel, hPlace, hStop⟩ := (hCall.staysWithin hWell).bounds
  refine Finset.mem_coe.mpr (Finset.mem_image.mpr ⟨(v.level, v.stop, v.place), ?_, rfl⟩)
  simp only [places, Finset.mem_product, Finset.mem_range]
  omega

/-- **A reader stays within its tokens and skips none.** Whatever the text, it makes finitely many
calls. Every call that is reached has its range within the tokens; a parenthesis of the range that
is matched is matched within it; an expression that is read fills the range, so behind one in
parentheses exactly the closing one is jumped over. And every call starts behind the one that makes
it. -/
theorem reading_stays_within (text : String) :
    {v | (ofText text).Reaches v}.Finite ∧
      ∀ v, (ofText text).Reaches v → (ofText text).StaysWithin v := by
  have hWell := wellFormed_ofText text
  refine ⟨finite_reaches hWell, ?_⟩
  intro v hReaches
  obtain ⟨opened, hCall⟩ := hReaches.exists_call hWell
  exact hCall.staysWithin hWell

/-- Inside the parentheses of a formula, and behind an operator with a stray one after it. -/
theorem reading_stays_within_stray :
    let r := ofText "!(A) | B)"
    (r.Reaches ⟨1, 3, 2⟩ ∧ r.StaysWithin ⟨1, 3, 2⟩) ∧
      (r.Reaches ⟨1, 7, 5⟩ ∧ r.StaysWithin ⟨1, 7, 5⟩) := by
  intro r
  -- one call lies between the parentheses, the other behind the operator
  have hInside : r.Reaches ⟨1, 3, 2⟩ := by
    have hPeek : r.peek 7 (r.negation 7 0).2 = some ⟨.opening, "(", 1⟩ := by decide
    have hPartner : r.partners[(r.negation 7 0).2]? = some (some 3) := by decide
    exact Relation.ReflTransGen.single (.inside (Nat.zero_le _) hPeek hPartner)
  have hBehind : r.Reaches ⟨1, 7, 5⟩ := by
    have hOperand : r.operand (r.expr maxLevel) 7 (r.negation 7 0).2 = .ok (.var "A", 4) := by
      decide
    have hPeek : r.peek 7 4 = some ⟨.connective .or, "|", 5⟩ := by decide
    exact Relation.ReflTransGen.single (.behind (Nat.zero_le _) hOperand hPeek)
  exact ⟨⟨hInside, (reading_stays_within _).2 _ hInside⟩, hBehind,
    (reading_stays_within _).2 _ hBehind⟩

end Reader

end Propositional
