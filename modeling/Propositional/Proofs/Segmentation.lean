import Mathlib.Data.List.Pairwise
import Mathlib.Data.List.Sort
import Propositional.Proofs.Cutting

/-!
# Propositional — what a text is cut into

The scan finds the tokens of a text with a list of symbols in which the first that fits is
taken, and with a word that goes on until something stops it. Said without the scan, the tokens
of a text are such that

* what may stand at the start of a text as a token is a parenthesis, the longest symbol that is
  spelled there, or a word up to where a word has to end (`Token.IsCut`), and every token is such
  a start of the text from its offset on;
* the tokens lie one behind the other without overlapping, and only blanks lie between them
  (`Token.IsCutting`).

No other tokens have these properties (`Token.IsCutting.unique`): what is cut at a place is
determined by the text from there on, and two ways to cut a text that agree before a place
agree at the place.

Main result: `Token.toList_ofText_eq_iff`.
-/

namespace Propositional.Token

variable {text word after rest spelling spelling' : List Char} {symbol : List Char × Kind}
variable {kind kind' : Kind} {tokens tokens' : List Token} {t t' : Token}

/-! ## Symbols -/

/-- A symbol is spelled at the start of a text, and no longer one is. -/
structure IsLongestSymbol (text : List Char) (symbol : List Char × Kind) : Prop where
  mem : symbol ∈ symbols
  spelled : symbol.1 <+: text
  longest : ∀ other ∈ symbols, other.1 <+: text → other.1.length ≤ symbol.1.length

/-- No symbol begins with one that stands before it. -/
theorem pairwise_symbols : symbols.Pairwise fun symbol later => ¬ symbol.1 <+: later.1 := by
  decide

/-- Symbols that are spelled alike are the same. -/
theorem eq_of_mem_symbols {other : List Char × Kind} (h : symbol ∈ symbols)
    (h' : other ∈ symbols) (hSpelling : symbol.1 = other.1) : symbol = other := by
  have hAll : ∀ symbol ∈ symbols, ∀ other ∈ symbols, symbol.1 = other.1 → symbol = other := by
    decide
  exact hAll symbol h other h' hSpelling

/-- The first symbol that fits is the longest. -/
theorem symbolAt?_longest (h : symbolAt? text = some symbol) : IsLongestSymbol text symbol := by
  obtain ⟨hMem, hSpelled⟩ := symbolAt?_eq_some h
  refine ⟨hMem, hSpelled, ?_⟩
  intro other hOther hFits
  unfold symbolAt? at h
  obtain ⟨-, before, behind, hSymbols, hBefore⟩ := List.find?_eq_some_iff_append.mp h
  -- a longer symbol that fits would begin with this one and so stand before it
  by_contra hLonger
  have hBegins : symbol.1 <+: other.1 :=
    List.prefix_of_prefix_length_le hSpelled hFits (by omega)
  rw [hSymbols, List.mem_append, List.mem_cons] at hOther
  rcases hOther with hOther | rfl | hOther
  · have hNot := hBefore other hOther
    simp only [List.isPrefixOf_iff_prefix.mpr hFits] at hNot
    cases hNot
  · exact hLonger (Nat.le_refl _)
  · have hOrder := pairwise_symbols
    rw [hSymbols] at hOrder
    have hBehind := (List.pairwise_cons.mp (List.pairwise_append.mp hOrder).2.1).1 other hOther
    exact hBehind hBegins

/-- The symbol that is found is the longest one that the text starts with. -/
theorem symbolAt?_eq_some_iff : symbolAt? text = some symbol ↔ IsLongestSymbol text symbol := by
  refine ⟨symbolAt?_longest, ?_⟩
  intro h
  cases hFound : symbolAt? text with
  | none => exact absurd h.spelled (symbolAt?_eq_none_iff.mp hFound symbol h.mem)
  | some found =>
    -- both are as long as can be, so they are spelled alike
    have hLongest := symbolAt?_longest hFound
    have hLength : found.1.length = symbol.1.length :=
      Nat.le_antisymm (h.longest found hLongest.mem hLongest.spelled)
        (hLongest.longest symbol h.mem h.spelled)
    have hSpelling : found.1 = symbol.1 := by
      rw [List.prefix_iff_eq_take.mp hLongest.spelled, List.prefix_iff_eq_take.mp h.spelled,
        hLength]
    rw [eq_of_mem_symbols hLongest.mem h.mem hSpelling]

/-! ## Words -/

/-- Where a word has to end: where the text ends, before a blank or a parenthesis, and where a
symbol is spelled. -/
def StopsWord (after : List Char) : Prop :=
  AtBoundary after ∨ ∃ symbol ∈ symbols, symbol.1 <+: after

/-- A word, with all that comes after it in the text: nothing stops it before its end, and there it
has to end. A symbol that would stop it may reach beyond it. -/
structure IsMaximalWord (word after : List Char) : Prop where
  ne_nil : word ≠ []
  not_blank : ∀ c ∈ word, isBlank c = false
  not_parenthesis : ∀ c ∈ word, c ≠ '(' ∧ c ≠ ')'
  not_symbol : ∀ part, part <:+ word → part ≠ [] → ∀ symbol ∈ symbols, ¬ symbol.1 <+: part ++ after
  stops : StopsWord after

/-- A word ends where a boundary or a symbol stands. -/
theorem endsWord_eq_true_iff : endsWord after = true ↔ StopsWord after := by
  constructor
  · intro h
    cases after with
    | nil => exact .inl atBoundary_nil
    | cons c rest =>
      by_contra hStops
      -- else nothing would end the word here
      rw [StopsWord, not_or, not_exists] at hStops
      have hGoesOn : endsWord (c :: rest) = false := by
        rw [endsWord_cons_eq_false_iff, symbolAt?_eq_none_iff]
        have hChar : ¬ (isBlank c = true ∨ c = '(' ∨ c = ')') :=
          fun hChar => hStops.1 (atBoundary_cons hChar)
        rw [not_or, not_or, Bool.not_eq_true] at hChar
        exact ⟨hChar.1, hChar.2, fun symbol hSymbol hSpelled =>
          hStops.2 symbol ⟨hSymbol, hSpelled⟩⟩
      rw [hGoesOn] at h
      cases h
  · rintro (hBoundary | ⟨symbol, hSymbol, hSpelled⟩)
    · exact endsWord_of_atBoundary hBoundary
    · cases after with
      | nil => rfl
      | cons c rest =>
        rw [← Bool.not_eq_false, endsWord_cons_eq_false_iff, symbolAt?_eq_none_iff]
        rintro ⟨-, -, hNone⟩
        exact hNone symbol hSymbol hSpelled

/-- A word is maximal if it goes on until it ends. -/
theorem isMaximalWord_iff :
    IsMaximalWord word after ↔ word ≠ [] ∧ endsWord after = true ∧ GoesOn word after := by
  constructor
  · intro h
    refine ⟨h.ne_nil, endsWord_eq_true_iff.mpr h.stops, ?_⟩
    intro part hPart hNe
    obtain ⟨c, part, rfl⟩ := List.exists_cons_of_ne_nil hNe
    -- nothing stops the word at `c`: it is one of its characters, and no symbol starts with it
    have hMem : c ∈ word := hPart.subset List.mem_cons_self
    rw [List.cons_append, endsWord_cons_eq_false_iff, symbolAt?_eq_none_iff, ← List.cons_append]
    exact ⟨h.not_blank c hMem, h.not_parenthesis c hMem, h.not_symbol _ hPart hNe⟩
  · rintro ⟨hNe, hEnds, hGoesOn⟩
    have hWord := hGoesOn.unbroken
    refine ⟨hNe, hWord.not_blank, hWord.not_parenthesis, ?_, endsWord_eq_true_iff.mp hEnds⟩
    intro part hPart hPartNe symbol hSymbol hSpelled
    -- a symbol that starts in the word would end it there
    have hStops := endsWord_eq_true_iff.mpr (.inr ⟨symbol, hSymbol, hSpelled⟩)
    rw [hGoesOn part hPart hPartNe] at hStops
    cases hStops

/-- Keywords that are spelled alike stand for the same. -/
theorem wordKind_of_mem {keyword : List Char × Kind} (hKeyword : keyword ∈ keywords)
    (h : word.map Char.toUpper = keyword.1) : wordKind word = keyword.2 := by
  have hAll : ∀ keyword ∈ keywords, (keywords.find? fun other => other.1 == keyword.1) =
      some keyword := by decide
  rw [wordKind, h, hAll keyword hKeyword]

/-! ## What may be cut -/

/-- What may stand at the start of a text as a token: a parenthesis, the longest symbol spelled
there, or a whole word. A word stands for the keyword that it spells in some case, or else for a
variable. -/
inductive IsCut (text : List Char) : Kind → List Char → Prop
  | opening (rest : List Char) (hText : text = '(' :: rest) : IsCut text .opening ['(']
  | closing (rest : List Char) (hText : text = ')' :: rest) : IsCut text .closing [')']
  | symbol (symbol : List Char × Kind) (h : IsLongestSymbol text symbol) :
    IsCut text symbol.2 symbol.1
  | keyword (keyword : List Char × Kind) (word after : List Char) (hText : text = word ++ after)
    (hWord : IsMaximalWord word after) (hMem : keyword ∈ keywords)
    (hCase : word.map Char.toUpper = keyword.1) : IsCut text keyword.2 word
  | name (word after : List Char) (hText : text = word ++ after)
    (hWord : IsMaximalWord word after)
    (hNoKeyword : ∀ keyword ∈ keywords, word.map Char.toUpper ≠ keyword.1) : IsCut text .name word

namespace IsCut

theorem isPrefix (h : IsCut text kind spelling) : spelling <+: text := by
  cases h with
  | opening rest hText | closing rest hText => exact ⟨rest, hText.symm⟩
  | symbol symbol h => exact h.spelled
  | keyword keyword word after hText | name word after hText => exact ⟨after, hText.symm⟩

/-- A token has a first character, and it is no blank. -/
theorem exists_cons (h : IsCut text kind spelling) :
    ∃ c tail, spelling = c :: tail ∧ isBlank c = false := by
  -- no way of cutting takes nothing, or starts with a blank
  cases h with
  | opening | closing => exact ⟨_, [], rfl, rfl⟩
  | symbol symbol h =>
    obtain ⟨c, tail, hSpelling⟩ := List.exists_cons_of_ne_nil (symbol_ne_nil h.mem)
    have hChar := not_boundary_of_mem_symbol h.mem (hSpelling ▸ List.mem_cons_self)
    rw [not_or, Bool.not_eq_true] at hChar
    exact ⟨c, tail, hSpelling, hChar.1⟩
  | keyword _ _ _ _ hWord | name _ _ _ hWord =>
    obtain ⟨c, tail, rfl⟩ := List.exists_cons_of_ne_nil hWord.ne_nil
    exact ⟨c, tail, rfl, hWord.not_blank c List.mem_cons_self⟩

/-- A word that cannot go on is cut off as a whole. -/
theorem lexeme_word {c : Char} (h : IsMaximalWord (c :: word) after) :
    lexeme c (word ++ after) = (wordKind (c :: word), c :: word) := by
  obtain ⟨-, hEnds, hGoesOn⟩ := isMaximalWord_iff.mp h
  exact hGoesOn.lexeme_append hEnds

/-- What may be cut is what the scan cuts, -/
theorem lexeme_eq {c : Char} (h : IsCut (c :: rest) kind spelling) :
    lexeme c rest = (kind, spelling) := by
  cases h with
  | opening _ hText | closing _ hText =>
    rw [(List.cons.inj hText).1]
    rfl
  | symbol symbol h =>
    -- a symbol does not begin with a parenthesis, so the scan looks for a symbol at all
    have hChar : ¬ (isBlank c = true ∨ c = '(' ∨ c = ')') := by
      obtain ⟨c', tail, hSpelling⟩ := List.exists_cons_of_ne_nil (symbol_ne_nil h.mem)
      have hSpelled := h.spelled
      rw [hSpelling, List.cons_prefix_cons] at hSpelled
      exact not_boundary_of_mem_symbol h.mem (hSpelling ▸ hSpelled.1 ▸ List.mem_cons_self)
    rw [not_or, not_or] at hChar
    rw [lexeme, if_neg hChar.2.1, if_neg hChar.2.2, symbolAt?_eq_some_iff.mpr h]
  | keyword keyword _ after hText hWord hMem hCase =>
    obtain ⟨c', word, rfl⟩ := List.exists_cons_of_ne_nil hWord.ne_nil
    rw [List.cons_append] at hText
    obtain ⟨rfl, rfl⟩ := List.cons.inj hText
    rw [lexeme_word hWord, wordKind_of_mem hMem hCase]
  | name _ after hText hWord hNoKeyword =>
    obtain ⟨c', word, rfl⟩ := List.exists_cons_of_ne_nil hWord.ne_nil
    rw [List.cons_append] at hText
    obtain ⟨rfl, rfl⟩ := List.cons.inj hText
    have hKind : wordKind (c :: word) = .name :=
      wordKind_eq_name_iff.mpr fun keyword hMem hCase => hNoKeyword keyword hMem hCase.symm
    rw [lexeme_word hWord, hKind]

/-- so the text decides it. -/
theorem unique (h : IsCut text kind spelling) (h' : IsCut text kind' spelling') :
    kind = kind' ∧ spelling = spelling' := by
  obtain ⟨c, tail, rfl, -⟩ := h.exists_cons
  obtain ⟨rest, rfl⟩ := h.isPrefix
  have hSame := (lexeme_eq h).symm.trans (lexeme_eq h')
  exact Prod.mk.inj hSame

end IsCut

/-- What the scan cuts off may be cut. -/
theorem isCut_lexeme {c : Char} (hc : isBlank c = false) :
    IsCut (c :: rest) (lexeme c rest).1 (lexeme c rest).2 := by
  rcases @lexeme_cases rest c hc with ⟨rfl, hEq⟩ | ⟨rfl, hEq⟩ | ⟨symbol, hSymbol, hEq⟩ |
    ⟨word, after, rfl, hEq, hEnds, hGoesOn⟩
  · rw [hEq]
    exact .opening rest rfl
  · rw [hEq]
    exact .closing rest rfl
  · rw [hEq]
    exact .symbol symbol (symbolAt?_longest hSymbol)
  · rw [hEq]
    have hWord : IsMaximalWord (c :: word) after :=
      isMaximalWord_iff.mpr ⟨List.cons_ne_nil c word, hEnds, hGoesOn⟩
    by_cases hName : wordKind (c :: word) = .name
    · rw [hName]
      exact .name _ after rfl hWord fun keyword hMem hCase =>
        wordKind_eq_name_iff.mp hName keyword hMem hCase.symm
    · -- no variable, so some keyword is spelled, and that is what the word stands for
      rw [wordKind_eq_name_iff] at hName
      push Not at hName
      obtain ⟨keyword, hMem, hCase⟩ := hName
      rw [wordKind_of_mem hMem hCase.symm]
      exact .keyword keyword _ after rfl hWord hMem hCase.symm

/-! ## The scan -/

/-- **Induction over a scan.** It ends with the text, passes over a blank, or cuts off a token and
goes on behind it. -/
theorem scan_induction {motive : List Char → Nat → List Token → Prop}
    (hNil : ∀ offset, motive [] offset [])
    (hBlank : ∀ c rest offset tokens, isBlank c = true → motive rest (offset + 1) tokens →
      motive (c :: rest) offset tokens)
    (hToken : ∀ kind spelling rest offset tokens, IsCut (spelling ++ rest) kind spelling →
      motive rest (offset + spelling.length) tokens →
      motive (spelling ++ rest) offset (⟨kind, String.ofList spelling, offset⟩ :: tokens))
    (text : List Char) (offset : Nat) : motive text offset (scan text offset 0 #[]).toList := by
  -- the induction is on the length, because a token is cut off as a whole
  induction hLength : text.length using Nat.strong_induction_on generalizing text offset with
  | _ n ih =>
    subst hLength
    cases text with
    | nil => exact hNil offset
    | cons c rest =>
      rw [scan]
      split
      next hIsBlank =>
        exact hBlank c rest offset _ hIsBlank (ih _ (Nat.lt_succ_self _) rest (offset + 1) rfl)
      next hNoBlank =>
        have hCut := @isCut_lexeme rest c (Bool.eq_false_iff.mpr hNoBlank)
        rcases hLexeme : lexeme c rest with ⟨kind, spelling⟩
        rw [hLexeme] at hCut
        obtain ⟨c', tail, hSpelling, -⟩ := hCut.exists_cons
        obtain ⟨after, hText⟩ := hCut.isPrefix
        dsimp only at hCut hSpelling hText ⊢
        subst hSpelling
        rw [List.cons_append] at hText
        obtain ⟨rfl, rfl⟩ := List.cons.inj hText
        -- the other characters of the token are passed over
        simp only [List.length_cons, Nat.add_sub_cancel]
        rw [scan_skip _ _ _ _ (by simp), List.drop_left, toList_scan, Nat.add_right_comm,
          Nat.add_assoc]
        refine hToken kind (c' :: tail) after offset _ hCut (ih _ ?_ after _ rfl)
        simp only [List.length_cons, List.length_append]
        omega

/-- Each token is cut off the text from its offset on. -/
theorem exists_append_of_mem_scan (text : List Char) (offset : Nat) :
    ∀ t ∈ (scan text offset 0 #[]).toList, ∃ front rest, text = front ++ rest ∧
      t.offset = offset + front.length ∧ IsCut rest t.kind t.text.toList := by
  induction text, offset using scan_induction with
  | hNil offset => nofun
  | hBlank c rest offset tokens hBlank ih =>
    intro t hMem
    obtain ⟨front, back, rfl, hOffset, hCut⟩ := ih t hMem
    -- the blank is put in front of what came before the token
    refine ⟨c :: front, back, rfl, ?_, hCut⟩
    rw [hOffset, List.length_cons]
    omega
  | hToken kind spelling rest offset tokens hCut ih =>
    intro t hMem
    rcases List.mem_cons.mp hMem with rfl | hMem
    · -- the token that is cut off has nothing in front of it
      exact ⟨[], _, rfl, rfl, by rwa [String.toList_ofList]⟩
    · obtain ⟨front, back, rfl, hOffset, hCut'⟩ := ih t hMem
      refine ⟨spelling ++ front, back, by rw [List.append_assoc], ?_, hCut'⟩
      rw [hOffset, List.length_append, Nat.add_assoc]

/-! ## The tokens of a text -/

/-- The places of the characters that a token takes. -/
def Covers (t : Token) (place : Nat) : Prop := t.offset ≤ place ∧ place < t.offset + t.text.length

/-- The tokens are what a text is cut into. -/
structure IsCutting (text : String) (tokens : List Token) : Prop where
  /-- A token has characters, and they are those of the text from its offset on. -/
  spelled : ∀ t ∈ tokens, t.text ≠ "" ∧ t.text.toList <+: text.toList.drop t.offset
  /-- A token ends before the next one begins. -/
  apart : tokens.Pairwise fun t t' => t.offset + t.text.length ≤ t'.offset
  /-- What no token takes is blank. -/
  blank : ∀ place c, text.toList[place]? = some c → (∀ t ∈ tokens, ¬ t.Covers place) →
    isBlank c = true
  /-- A token is a parenthesis, the longest symbol or a whole word, and stands for that. -/
  cut : ∀ t ∈ tokens, IsCut (text.toList.drop t.offset) t.kind t.text.toList

/-- The tokens of a scan lie one behind the other, from its offset on. -/
theorem apart_scan (text : List Char) (offset : Nat) :
    (∀ t ∈ (scan text offset 0 #[]).toList, offset ≤ t.offset) ∧
      (scan text offset 0 #[]).toList.Pairwise
        fun t t' => t.offset + t.text.length ≤ t'.offset := by
  induction text, offset using scan_induction with
  | hNil offset => exact ⟨nofun, .nil⟩
  | hBlank c rest offset tokens hBlank ih =>
    exact ⟨fun t hMem => Nat.le_of_succ_le (ih.1 t hMem), ih.2⟩
  | hToken kind spelling rest offset tokens hCut ih =>
    obtain ⟨hFrom, hApart⟩ := ih
    constructor
    · refine List.forall_mem_cons.mpr ⟨Nat.le_refl _, ?_⟩
      intro t hMem
      exact Nat.le_trans (Nat.le_add_right _ _) (hFrom t hMem)
    · -- the scan goes on where the token ends
      refine List.pairwise_cons.mpr ⟨?_, hApart⟩
      intro t hMem
      rw [String.length_ofList]
      exact hFrom t hMem

/-- What a scan passes over is blank. -/
theorem isBlank_of_not_covers_scan (text : List Char) (offset : Nat) :
    ∀ place c, text[place]? = some c →
      (∀ t ∈ (scan text offset 0 #[]).toList, ¬ t.Covers (offset + place)) →
      isBlank c = true := by
  induction text, offset using scan_induction with
  | hNil offset => nofun
  | hBlank first rest offset tokens hBlank ih =>
    intro place c hChar hNone
    cases place with
    | zero =>
      cases hChar
      exact hBlank
    | succ place =>
      refine ih place c hChar ?_
      rwa [Nat.add_right_comm, Nat.add_assoc]
  | hToken kind spelling rest offset tokens hCut ih =>
    intro place c hChar hNone
    obtain ⟨hNotFirst, hNone⟩ := List.forall_mem_cons.mp hNone
    rw [Covers, String.length_ofList] at hNotFirst
    dsimp only at hNotFirst
    -- the first token takes the places of its spelling, so this place lies behind it
    have hBehind : spelling.length ≤ place := by omega
    rw [List.getElem?_append_right hBehind] at hChar
    refine ih _ c hChar ?_
    rwa [show offset + spelling.length + (place - spelling.length) = offset + place by omega]

/-- The tokens of a text are a cutting of it. -/
theorem isCutting_ofText (text : String) : IsCutting text (ofText text).toList := by
  -- each token was cut off a text that starts at its offset
  have hCut : ∀ t ∈ (ofText text).toList,
      IsCut (text.toList.drop t.offset) t.kind t.text.toList := by
    intro t hMem
    obtain ⟨front, rest, hText, hOffset, hCut⟩ := exists_append_of_mem_scan text.toList 0 t hMem
    rwa [hText, hOffset, Nat.zero_add, List.drop_left]
  refine ⟨?_, (apart_scan text.toList 0).2, ?_, hCut⟩
  · intro t hMem
    obtain ⟨c, tail, hSpelling, -⟩ := (hCut t hMem).exists_cons
    refine ⟨?_, (hCut t hMem).isPrefix⟩
    rintro hEmpty
    rw [hEmpty] at hSpelling
    cases hSpelling
  · intro place c hChar hNone
    refine isBlank_of_not_covers_scan text.toList 0 place c hChar ?_
    rwa [Nat.zero_add]

/-! ## No other tokens -/

namespace IsCutting

variable {text : String}

/-- Two tokens do not take the same place. -/
theorem eq_of_covers (h : IsCutting text tokens) (hMem : t ∈ tokens) (hMem' : t' ∈ tokens)
    {place : Nat} (hCovers : t.Covers place) (hCovers' : t'.Covers place) : t = t' := by
  by_contra hNe
  have hSymm : Std.Symm fun t t' : Token =>
      t.offset + t.text.length ≤ t'.offset ∨ t'.offset + t'.text.length ≤ t.offset :=
    ⟨fun _ _ => Or.symm⟩
  have hEitherWay : tokens.Pairwise fun t t' : Token =>
      t.offset + t.text.length ≤ t'.offset ∨ t'.offset + t'.text.length ≤ t.offset :=
    h.apart.imp Or.inl
  -- one ends before the other begins, and no place is in both
  have hApart := hEitherWay.forall hMem hMem' hNe
  unfold Covers at hCovers hCovers'
  omega

theorem length_pos (h : IsCutting text tokens) (hMem : t ∈ tokens) : 0 < t.text.length := by
  obtain ⟨c, tail, hSpelling, -⟩ := (h.cut t hMem).exists_cons
  rw [← String.length_toList, hSpelling]
  exact Nat.succ_pos _

/-- Where a token begins stands a character that is no blank. -/
theorem exists_char (h : IsCutting text tokens) (hMem : t ∈ tokens) :
    ∃ c, text.toList[t.offset]? = some c ∧ isBlank c = false := by
  obtain ⟨c, tail, hSpelling, hc⟩ := (h.cut t hMem).exists_cons
  obtain ⟨rest, hRest⟩ := (h.spelled t hMem).2
  refine ⟨c, ?_, hc⟩
  rw [← List.head?_drop, ← hRest, hSpelling]
  rfl

/-- A token of one cutting is a token of every other one. -/
theorem mem_of_mem (h : IsCutting text tokens) (h' : IsCutting text tokens') (hMem : t ∈ tokens) :
    t ∈ tokens' := by
  -- by induction on the offset, for both at once
  induction hOffset : t.offset using Nat.strong_induction_on generalizing t tokens tokens' with
  | _ offset ih =>
    subst hOffset
    obtain ⟨c, hChar, hc⟩ := h.exists_char hMem
    -- the character is taken by some token of the other cutting
    have hTaken : ∃ t' ∈ tokens', t'.Covers t.offset := by
      by_contra hNone
      push Not at hNone
      have hBlank := h'.blank _ c hChar hNone
      rw [hc] at hBlank
      cases hBlank
    obtain ⟨t', hMem', hCovers⟩ := hTaken
    rcases Nat.eq_or_lt_of_le hCovers.1 with hSame | hBefore
    · -- it begins at the same place, so it is the same
      have hCut := h'.cut t' hMem'
      rw [hSame] at hCut
      obtain ⟨hKind, hText⟩ := (h.cut t hMem).unique hCut
      have hEqual : t = t' := by
        obtain ⟨kind, text, offset⟩ := t
        obtain ⟨kind', text', offset'⟩ := t'
        rw [String.toList_inj] at hText
        cases hKind
        cases hText
        cases hSame
        rfl
      exact hEqual ▸ hMem'
    · -- if it began earlier, it would be one of the first cutting, where the two would overlap
      have hMemFirst : t' ∈ tokens := ih t'.offset hBefore h' h hMem' rfl
      have hCoversFirst : t.Covers t.offset :=
        ⟨Nat.le_refl _, Nat.lt_add_of_pos_right (h.length_pos hMem)⟩
      rw [h.eq_of_covers hMem hMemFirst hCoversFirst hCovers]
      exact hMem'

/-- **A text is cut in one way.** -/
theorem unique (h : IsCutting text tokens) (h' : IsCutting text tokens') : tokens = tokens' := by
  have hOrdered {tokens : List Token} (h : IsCutting text tokens) :
      tokens.Pairwise fun t t' => t.offset < t'.offset := by
    refine h.apart.imp_of_mem ?_
    intro t t' hMem _ hApart
    exact Nat.lt_of_lt_of_le (Nat.lt_add_of_pos_right (h.length_pos hMem)) hApart
  -- lists that are in strict order are equal as soon as they have the same members
  have hIrrefl : Std.Irrefl fun t t' : Token => t.offset < t'.offset := ⟨fun _ => Nat.lt_irrefl _⟩
  have hAntisymm : Std.Antisymm fun t t' : Token => t.offset < t'.offset :=
    ⟨fun _ _ hLt hGt => absurd hGt (Nat.lt_asymm hLt)⟩
  refine List.Pairwise.eq_of_mem_iff (hOrdered h) (hOrdered h') ?_
  intro t
  exact ⟨h.mem_of_mem h', h'.mem_of_mem h⟩

end IsCutting

/-- **What a text is cut into.** The tokens that the scan finds are spelled in the text at their
offsets, one behind the other with only blanks in between; each is a parenthesis, the longest symbol
spelled at its place or a whole word, which is a keyword exactly if it spells one in some case. No
other tokens are. -/
theorem toList_ofText_eq_iff (text : String) (tokens : List Token) :
    (ofText text).toList = tokens ↔ IsCutting text tokens := by
  constructor
  · rintro rfl
    exact isCutting_ofText text
  · intro h
    exact (isCutting_ofText text).unique h

/-- A part of a symbol does not end a word, and the longer of two symbols is taken. -/
example : (ofText "a<=b <=>!Not(c)").toList =
    [⟨.name, "a<=b", 0⟩, ⟨.connective .iff, "<=>", 5⟩, ⟨.negation, "!", 8⟩,
      ⟨.negation, "Not", 9⟩, ⟨.opening, "(", 12⟩, ⟨.name, "c", 13⟩, ⟨.closing, ")", 14⟩] := by
  decide

end Propositional.Token
