import Propositional.Proofs.Beginnings
import Propositional.Proofs.Segmentation

/-!
# Propositional — spacing and spelling

The tokens of a text can be spelled in other ways: an operator by any of its symbols or by its
keyword in any case, and all of them with any blanks in between (`Token.Respells`). A reader does
not notice.

* The new text has tokens with the same senses (`Token.senses_of_respells`). Between blanks
  nothing can run together, and no symbol reaches beyond a blank.
* A reader of tokens with the same senses takes the same way through them, so it reads the same
  formula or stops for the same reason (`Reader.Alike.expr_eq`). Where it stops the offsets and
  the spellings differ, but not what is at fault there (`ParseError.Cause.fault`).

Main result: `Formula.parse_respelled`.
-/

namespace Propositional

open Token ParseError

/-! ## Spellings -/

namespace Token

variable {text word rest spelling gap : List Char} {symbol : List Char × Kind} {t t' : Token}
variable {tokens tokens' : List Token}

/-- How a token may be spelled. Variables and parentheses stay as they are; an operator or a
negation is spelled by one of its symbols or by its keyword in any case. -/
inductive MaySpell (t : Token) : List Char → Prop
  | name (h : t.kind = .name) : MaySpell t t.text.toList
  | opening (h : t.kind = .opening) : MaySpell t ['(']
  | closing (h : t.kind = .closing) : MaySpell t [')']
  | symbol (spelling : List Char) (h : (spelling, t.kind) ∈ symbols) : MaySpell t spelling
  | keyword (word : List Char) (h : (word.map Char.toUpper, t.kind) ∈ keywords) : MaySpell t word

/-- Blanks only. -/
def IsGap (gap : List Char) : Prop := ∀ c ∈ gap, isBlank c = true

instance (gap : List Char) : Decidable (IsGap gap) :=
  decidable_of_iff (gap.all isBlank = true) List.all_eq_true

/-- A text that begins with a blank, or nothing. -/
def StartsApart (rest : List Char) : Prop := ∀ c ∈ rest.head?, isBlank c = true

instance (rest : List Char) : Decidable (StartsApart rest) :=
  decidable_of_iff (rest.head?.all isBlank = true) (by cases rest <;> simp [StartsApart])

/-- The text spells the tokens one after the other. There are blanks between each token and the
next, and there may be some before the first and behind the last. -/
inductive Respells : List Token → List Char → Prop
  | gap {gap : List Char} (hGap : IsGap gap) : Respells [] gap
  | token {t : Token} {tokens : List Token} {gap spelling rest : List Char} (hGap : IsGap gap)
    (hSpelling : MaySpell t spelling) (hApart : StartsApart rest)
    (hRest : Respells tokens rest) : Respells (t :: tokens) (gap ++ spelling ++ rest)

theorem kind_ne_name_of_mem_symbols (h : symbol ∈ symbols) : symbol.2 ≠ .name := by
  have hAll : ∀ symbol ∈ symbols, symbol.2 ≠ .name := by decide
  exact hAll symbol h

theorem kind_ne_name_of_mem_keywords {keyword : List Char × Kind} (h : keyword ∈ keywords) :
    keyword.2 ≠ .name := by
  have hAll : ∀ keyword ∈ keywords, keyword.2 ≠ .name := by decide
  exact hAll keyword h

theorem sense_of_kind_ne_name (h : t.kind ≠ .name) : t.sense = (t.kind, none) := by
  rw [sense, if_neg h]

/-- Blanks have no sense. -/
theorem senses_gap (h : IsGap gap) : senses (gap ++ rest) = senses rest := by
  induction gap with
  | nil => rfl
  | cons c gap ih =>
    obtain ⟨hBlank, hGap⟩ := List.forall_mem_cons.mp h
    rw [List.cons_append, senses_blank hBlank, ih hGap]

/-- A symbol is cut off at a boundary: it is spelled there, and a longer one would reach beyond. -/
theorem senses_symbol (h : symbol ∈ symbols) (hRest : AtBoundary rest) :
    senses (symbol.1 ++ rest) = (symbol.2, none) :: senses rest := by
  have hLongest : IsLongestSymbol (symbol.1 ++ rest) symbol := by
    refine ⟨h, List.prefix_append _ _, ?_⟩
    intro other hOther hSpelled
    exact (within_of_mem_symbols hOther hRest hSpelled).length_le
  have hCut : IsCut (symbol.1 ++ rest) symbol.2 symbol.1 := .symbol symbol hLongest
  obtain ⟨c, tail, hSpelling, hc⟩ := hCut.exists_cons
  rw [hSpelling] at hCut ⊢
  rw [senses_lexeme hc hCut.lexeme_eq, sense_of_kind_ne_name (kind_ne_name_of_mem_symbols h)]

/-! ## Keywords in any case -/

/-- Letters have codes from 65 to 122. -/
theorem toNat_of_isAlpha {c : Char} (h : c.isAlpha = true) : 65 ≤ c.toNat ∧ c.toNat ≤ 122 := by
  -- a letter is a capital or a small one
  rcases Bool.or_eq_true_iff.mp h with hUpper | hLower
  · obtain ⟨hFrom, hTo⟩ : 65 ≤ c.toNat ∧ c.toNat ≤ 90 := of_decide_eq_true hUpper
    omega
  · obtain ⟨hFrom, hTo⟩ := Bool.and_eq_true_iff.mp hLower
    have hFrom : 97 ≤ c.toNat := of_decide_eq_true hFrom
    have hTo : c.toNat ≤ 122 := of_decide_eq_true hTo
    omega

/-- Only a letter is a letter in capitals. -/
theorem isAlpha_of_toUpper {c : Char} (h : c.toUpper.isAlpha = true) : c.isAlpha = true := by
  by_cases hLower : 'a'.val ≤ c.val ∧ c.val ≤ 'z'.val
  · have hIsLower : c.isLower = true :=
      Bool.and_eq_true_iff.mpr ⟨decide_eq_true hLower.1, decide_eq_true hLower.2⟩
    exact Bool.or_eq_true_iff.mpr (.inr hIsLower)
  · have hSame : c.toUpper = c := dif_neg hLower
    rwa [hSame] at h

/-- Letters make one word. -/
theorem unbroken_of_isAlpha (h : ∀ c ∈ word, c.isAlpha = true) : Unbroken word := by
  refine ⟨?_, ?_, ?_⟩
  · intro c hc
    -- the codes of the blanks lie before and behind those of the letters
    have hAll : blankCodes.all (fun code => code < 65 || 122 < code) = true := by decide
    have hRange := toNat_of_isAlpha (h c hc)
    rw [← Bool.not_eq_true]
    intro hBlank
    have hCode := List.all_eq_true.mp hAll c.toNat (List.contains_iff_mem.mp hBlank)
    simp only [Bool.or_eq_true, decide_eq_true_eq] at hCode
    omega
  · intro c hc
    have hLetter := h c hc
    constructor
    · rintro rfl
      cases hLetter
    · rintro rfl
      cases hLetter
  · intro symbol hSymbol hInfix
    -- a symbol has a character, and none of a symbol's characters is a letter
    have hAll : symbols.all (fun symbol => symbol.1.all fun c => !c.isAlpha) = true := by decide
    obtain ⟨c, tail, hSpelling⟩ := List.exists_cons_of_ne_nil (symbol_ne_nil hSymbol)
    have hc : c ∈ symbol.1 := hSpelling ▸ List.mem_cons_self
    have hNot := List.all_eq_true.mp (List.all_eq_true.mp hAll symbol hSymbol) c hc
    rw [h c (hInfix.subset hc)] at hNot
    cases hNot

/-- A keyword is read in any case. -/
theorem senses_keyword_anyCase {kind : Kind} (h : (word.map Char.toUpper, kind) ∈ keywords)
    (hRest : AtBoundary rest) : senses (word ++ rest) = (kind, none) :: senses rest := by
  have hLetters : keywords.all (fun keyword => keyword.1.all Char.isAlpha) = true := by decide
  have hNonempty : ∀ keyword ∈ keywords, keyword.1 ≠ [] := by decide
  -- keywords are letters in capitals, so what spells one in any case are letters
  have hWord : Unbroken word := by
    apply unbroken_of_isAlpha
    intro c hc
    apply isAlpha_of_toUpper
    exact List.all_eq_true.mp (List.all_eq_true.mp hLetters _ h) _ (List.mem_map_of_mem hc)
  have hNe : word ≠ [] := by
    rintro rfl
    exact hNonempty _ h rfl
  rw [senses_unbroken hWord hNe hRest, wordKind_of_mem h rfl,
    sense_of_kind_ne_name (kind_ne_name_of_mem_keywords h)]

/-! ## Respelled texts -/

/-- However a token is spelled before a boundary, it is cut off there with its sense. -/
theorem senses_of_maySpell (hWord : t.kind = .name → IsWord t.text) (h : MaySpell t spelling)
    (hRest : AtBoundary rest) : senses (spelling ++ rest) = t.sense :: senses rest := by
  -- one way of spelling after the other; each is cut as a whole at the boundary
  cases h with
  | name hKind => rw [senses_name (hWord hKind) hRest, sense, if_pos hKind, hKind]
  | opening hKind =>
    rw [sense, hKind]
    exact senses_opening
  | closing hKind =>
    rw [sense, hKind]
    exact senses_closing
  | symbol _ hSymbol =>
    rw [sense_of_kind_ne_name (kind_ne_name_of_mem_symbols hSymbol)]
    exact senses_symbol hSymbol hRest
  | keyword _ hKeyword =>
    rw [sense_of_kind_ne_name (kind_ne_name_of_mem_keywords hKeyword)]
    exact senses_keyword_anyCase hKeyword hRest

/-- **A respelled text has the same senses.** -/
theorem senses_of_respells (hSpellable : Spellable tokens) (h : Respells tokens text) :
    senses text = tokens.map sense := by
  induction h with
  | gap hGap =>
    have hNone := @senses_gap [] _ hGap
    rwa [List.append_nil] at hNone
  -- the gap goes first, then the token up to the boundary, then the induction
  | token hGap hSpelling hApart _ ih =>
    obtain ⟨hWord, hRest⟩ := List.forall_mem_cons.mp hSpellable
    have hBoundary : AtBoundary _ := fun c hc => .inl (hApart c hc)
    rw [List.append_assoc, senses_gap hGap, senses_of_maySpell hWord hSpelling hBoundary,
      ih hRest, List.map_cons]

end Token

/-! ## What is at fault -/

/-- What is wrong with a text, without the place and the spelling there. -/
inductive ParseError.Fault where
  | missingOperand
  | unexpected
  | missingOperator
  | unclosedParenthesis
  | tooDeep
  deriving DecidableEq

/-- What an error is about. -/
def ParseError.Cause.fault : Cause → Fault
  | .missingOperand _ => .missingOperand
  | .unexpected _ _ => .unexpected
  | .missingOperator _ _ => .missingOperator
  | .unclosedParenthesis => .unclosedParenthesis
  | .tooDeep _ => .tooDeep

/-! ## Readers of tokens with the same senses -/

/-- The pass looks at nothing but the kinds. -/
theorem Token.matchFrom_congr {tokens tokens' : List Token}
    (h : tokens.map Token.kind = tokens'.map Token.kind) (place : Nat) (waiting : List Nat)
    (entries : Array (Option Nat)) :
    matchFrom tokens place waiting entries = matchFrom tokens' place waiting entries := by
  induction tokens generalizing tokens' place waiting entries with
  | nil => rw [List.map_eq_nil_iff.mp h.symm]
  | cons t tokens ih =>
    obtain ⟨t', rest, rfl, hKind, hRest⟩ := List.map_eq_cons_iff.mp h.symm
    have hSame := ih hRest.symm
    -- both take the same step, because the step depends on the kind and on what waits
    by_cases hOpening : t.kind = .opening
    · rw [matchFrom_opening hOpening, matchFrom_opening (hKind.trans hOpening), hSame]
    by_cases hClosing : t.kind = .closing
    · have hClosing' := hKind.trans hClosing
      cases waiting with
      | nil => rw [matchFrom_stray hClosing, matchFrom_stray hClosing', hSame]
      | cons start waiting => rw [matchFrom_closing hClosing, matchFrom_closing hClosing', hSame]
    · rw [matchFrom_other hOpening hClosing,
        matchFrom_other (hKind ▸ hOpening) (hKind ▸ hClosing), hSame]

/-- Tokens of the same senses are of the same kinds. -/
theorem Token.kinds_eq_of_senses_eq {tokens tokens' : List Token}
    (h : tokens.map sense = tokens'.map sense) :
    tokens.map Token.kind = tokens'.map Token.kind := by
  -- the kind is the first half of a sense
  have hFst (tokens : List Token) : tokens.map Token.kind = (tokens.map sense).map Prod.fst := by
    rw [List.map_map]
    rfl
  rw [hFst, h, ← hFst]

/-- What fails after a step fails with the same fault whether the step's own fault is looked at
before or after. -/
theorem mapError_bind {ε ε' α β : Type} (g : ε → ε') (x : Except ε α) (next : α → Except ε β) :
    (x >>= next).mapError g = x.mapError g >>= fun a => (next a).mapError g := by
  cases x <;> rfl

namespace Reader

/-- The tokens of two readers have the same senses, and the same parentheses are matched. -/
structure Alike (r r' : Reader) : Prop where
  senses : r.tokens.toList.map sense = r'.tokens.toList.map sense
  partners : r.partners = r'.partners

/-- Texts whose tokens have the same senses give readers that are alike. -/
theorem alike_of_senses {text text' : String}
    (h : (Token.ofText text).toList.map sense = (Token.ofText text').toList.map sense) :
    Alike (ofText text) (ofText text') := by
  refine ⟨h, ?_⟩
  -- the pass is given the kinds of the tokens and how many there are
  have hSize : (Token.ofText text).size = (Token.ofText text').size := by
    simpa using congrArg List.length h
  show Token.partners _ = Token.partners _
  rw [Token.partners, Token.partners, matchFrom_congr (kinds_eq_of_senses_eq h), hSize]

namespace Alike

variable {r r' : Reader} {stop place : Nat}
variable {expr expr' : Nat → Nat → Except Cause (Formula × Nat)}

/-- Both look at nothing, or at tokens with the same sense. -/
theorem peek_cases (h : r.Alike r') (stop place : Nat) :
    (r.peek stop place = none ∧ r'.peek stop place = none) ∨
      ∃ t t', r.peek stop place = some t ∧ r'.peek stop place = some t' ∧ t.sense = t'.sense := by
  -- the senses agree at every place
  have hToken : (r.tokens.toList[place]?).map sense = (r'.tokens.toList[place]?).map sense := by
    rw [← List.getElem?_map, h.senses, List.getElem?_map]
  rw [Array.getElem?_toList, Array.getElem?_toList] at hToken
  unfold peek
  split
  · cases hLook : r.tokens[place]? with
    | none =>
      rw [hLook, Option.map_none] at hToken
      exact .inl ⟨rfl, Option.map_eq_none_iff.mp hToken.symm⟩
    | some t =>
      rw [hLook, Option.map_some] at hToken
      obtain ⟨t', hLook', hSense⟩ := Option.map_eq_some_iff.mp hToken.symm
      exact .inr ⟨t, t', rfl, hLook', hSense.symm⟩
  · exact .inl ⟨rfl, rfl⟩

/-- Readers that are alike see the same mark. -/
theorem negation_eq (h : r.Alike r') : r.negation stop place = r'.negation stop place := by
  unfold negation
  rcases h.peek_cases stop place with ⟨hNone, hNone'⟩ |
    ⟨⟨kind, _, _⟩, ⟨kind', _, _⟩, hToken, hToken', hSense⟩
  · rw [hNone, hNone']
  · cases kind_eq_of_sense_eq hSense
    rw [hToken, hToken']
    cases kind <;> rfl

/-- The operand is the same, or what is at fault. -/
theorem operand_eq (h : r.Alike r')
    (hExpr : ∀ stop place,
      (expr stop place).mapError Cause.fault = (expr' stop place).mapError Cause.fault) :
    (r.operand expr stop place).mapError Cause.fault =
      (r'.operand expr' stop place).mapError Cause.fault := by
  unfold operand
  rcases h.peek_cases stop place with ⟨hNone, hNone'⟩ |
    ⟨⟨kind, _, _⟩, ⟨kind', _, _⟩, hToken, hToken', hSense⟩
  · rw [hNone, hNone']
    rfl
  · cases kind_eq_of_sense_eq hSense
    rw [hToken, hToken', h.partners]
    cases kind with
    | name =>
      -- of all tokens only a variable is read with its text, and that is part of its sense
      have hName := text_eq_of_sense_eq hSense rfl
      dsimp only at hName
      rw [hName]
    | opening =>
      dsimp only
      split
      · rw [mapError_bind, mapError_bind, hExpr]
      · rfl
    | negation | connective | closing => rfl

/-- What follows an operand is the same, or what is at fault. -/
theorem chain_eq (h : r.Alike r')
    (hExpr : ∀ stop place,
      (expr stop place).mapError Cause.fault = (expr' stop place).mapError Cause.fault)
    (first : Formula) :
    (r.chain expr first stop place).mapError Cause.fault =
      (r'.chain expr' first stop place).mapError Cause.fault := by
  unfold chain
  rcases h.peek_cases stop place with ⟨hNone, hNone'⟩ |
    ⟨⟨kind, _, _⟩, ⟨kind', _, _⟩, hToken, hToken', hSense⟩
  · rw [hNone, hNone']
  · cases kind_eq_of_sense_eq hSense
    rw [hToken, hToken']
    cases kind with
    | connective op =>
      dsimp only
      rw [mapError_bind, mapError_bind, hExpr]
    -- both miss an operator, though they name different tokens
    | name | negation | opening | closing => rfl

/-- **Readers of tokens with the same senses answer alike**: with the same formula and the same
place, or with the same fault. -/
theorem expr_eq (h : r.Alike r') (levels stop place : Nat) :
    (r.expr levels stop place).mapError Cause.fault =
      (r'.expr levels stop place).mapError Cause.fault := by
  induction levels generalizing stop place with
  | zero => rfl
  | succ levels ih =>
    rw [expr, expr, h.negation_eq]
    dsimp only
    rw [mapError_bind, mapError_bind, h.operand_eq ih]
    -- both go on from the same operand and the same place
    congr 1
    funext answer
    obtain ⟨first, middle⟩ := answer
    exact h.chain_eq ih _

end Alike

end Reader

/-! ## Reading a respelled text -/

/-- Computations that agree but for what their errors are about succeed with the same answer, or
fail alike. -/
theorem ok_and_error_of_mapError_eq {ε ε' α : Type} {g : ε → ε'} {x x' : Except ε α}
    (h : x.mapError g = x'.mapError g) :
    (∀ a, x = .ok a → x' = .ok a) ∧ ∀ e, x = .error e → ∃ e', x' = .error e' ∧ g e' = g e := by
  cases x with
  | ok a =>
    cases x' with
    | ok a' =>
      cases h
      exact ⟨fun _ hOk => hOk, nofun⟩
    | error e' => cases h
  | error e =>
    cases x' with
    | ok a' => cases h
    | error e' =>
      refine ⟨nofun, ?_⟩
      rintro _ ⟨⟩
      exact ⟨e', rfl, (Except.error.inj h).symm⟩

namespace Formula

variable {text text' : String}

/-- What a text is read as, or what is at fault, is up to its reader. -/
theorem mapError_parse (text : String) :
    (parse text).mapError (fun e => e.cause.fault) =
      (((Reader.ofText text).expr (maxLevel + 1) (Reader.ofText text).tokens.size 0).mapError
        Cause.fault).map Prod.fst := by
  unfold parse
  dsimp only
  split
  next f next hExpr =>
    rw [hExpr]
    rfl
  next cause hExpr =>
    rw [hExpr]
    rfl

/-- Texts with the same senses are read as the same formula, or have the same fault. -/
theorem mapError_parse_congr
    (h : (Token.ofText text).toList.map sense = (Token.ofText text').toList.map sense) :
    (parse text).mapError (fun e => e.cause.fault) =
      (parse text').mapError (fun e => e.cause.fault) := by
  have hAlike := Reader.alike_of_senses h
  have hSize : (Reader.ofText text).tokens.size = (Reader.ofText text').tokens.size := by
    simpa using congrArg List.length hAlike.senses
  rw [mapError_parse, mapError_parse, hAlike.expr_eq, hSize]

/-- **Spacing and spelling do not matter.** A text that spells the tokens of another in any of their
ways, with any blanks in between, has tokens with the same kinds and names. It is read as the same
formula if the other is read, and it has the same fault if the other is not. -/
theorem parse_respelled (h : Respells (Token.ofText text).toList text'.toList) :
    (Token.ofText text').toList.map sense = (Token.ofText text).toList.map sense ∧
      (∀ f, parse text = .ok f → parse text' = .ok f) ∧
      ∀ e, parse text = .error e →
        ∃ e', parse text' = .error e' ∧ e'.cause.fault = e.cause.fault := by
  have hSenses : (Token.ofText text').toList.map sense = (Token.ofText text).toList.map sense :=
    senses_of_respells (spellable_ofText text) h
  exact ⟨hSenses, ok_and_error_of_mapError_eq (mapError_parse_congr hSenses.symm)⟩

/-- An implication of which every operator is spelled anew, and a text that breaks off. -/
theorem parse_respelled_keywords :
    Respells (Token.ofText "p=>!q<r").toList " p\t→ noT q<r ".toList ∧
      parse " p\t→ noT q<r " = .ok (.join .implies (.var "p") (.literal "q<r" true)) ∧
      Respells (Token.ofText "p||").toList "p oR".toList ∧
      ∃ e, parse "p oR" = .error e ∧ e.cause.fault = .missingOperand := by
  have hRead : Respells (Token.ofText "p=>!q<r").toList " p\t→ noT q<r ".toList := by
    -- token by token: the name, the arrow, the keyword and the name again
    have hTokens : (Token.ofText "p=>!q<r").toList =
        [⟨.name, "p", 0⟩, ⟨.connective .implies, "=>", 1⟩, ⟨.negation, "!", 3⟩,
          ⟨.name, "q<r", 4⟩] := by decide
    have hText : " p\t→ noT q<r ".toList = [' '] ++ "p".toList ++ (['\t'] ++ ['→'] ++
        ([' '] ++ ['n', 'o', 'T'] ++ ([' '] ++ "q<r".toList ++ [' ']))) := by decide
    rw [hTokens, hText]
    refine .token (by decide) (.name rfl) (by decide) ?_
    refine .token (by decide) (.symbol _ (by decide)) (by decide) ?_
    refine .token (by decide) (.keyword _ (by decide)) (by decide) ?_
    exact .token (by decide) (.name rfl) (by decide) (.gap (by decide))
  have hBroken : Respells (Token.ofText "p||").toList "p oR".toList := by
    have hTokens : (Token.ofText "p||").toList =
        [⟨.name, "p", 0⟩, ⟨.connective .or, "||", 1⟩] := by decide
    have hText : "p oR".toList = [] ++ "p".toList ++ ([' '] ++ ['o', 'R'] ++ []) := by decide
    rw [hTokens, hText]
    refine .token nofun (.name rfl) (by decide) ?_
    exact .token (by decide) (.keyword _ (by decide)) nofun (.gap nofun)
  exact ⟨hRead, (parse_respelled hRead).2.1 _ (by decide), hBroken,
    (parse_respelled hBroken).2.2 _ (by decide : parse "p||" = .error ⟨"p||", .missingOperand 3⟩)⟩

end Formula

end Propositional
