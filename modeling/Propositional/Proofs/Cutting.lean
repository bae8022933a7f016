import Mathlib.Data.List.Infix
import Propositional.Text.Notation

/-!
# Propositional — cutting a text

A text is cut from left to right, and where a cut falls may depend on everything
that follows: a word goes on until something stops it, and a symbol may be spelled
across two pieces that were written one after the other. So every lemma here is
about a piece *with the rest of the text after it*.

* A run of characters without a break (`Token.Unbroken`) is one word, if a blank, a
  parenthesis or nothing at all follows (`Token.AtBoundary`). No symbol can reach
  beyond it, because symbols have no blanks and no parentheses.
* The other way round, every word that is cut is without a break, and a variable is
  one of the names that a text can spell (`Token.isWord_of_mem_ofText`).

A reader takes from a token what it stands for and, of a variable, the name
(`Token.sense`). The senses of a text follow the cut piece by piece and do not know
of offsets (`Token.senses`).
-/

namespace Propositional.Token

variable {word rest : List Char}

/-! ## Runs without a break -/

/-- Characters at none of which a text is cut. -/
structure Unbroken (word : List Char) : Prop where
  not_blank : ∀ c ∈ word, isBlank c = false
  not_parenthesis : ∀ c ∈ word, c ≠ '(' ∧ c ≠ ')'
  not_symbol : ∀ symbol ∈ symbols, ¬ symbol.1 <:+: word

/-- The same, computed. -/
theorem unbroken_iff_all : Unbroken word ↔
    word.all (fun c => !isBlank c && c != '(' && c != ')') = true ∧
      symbols.all (fun symbol => !decide (symbol.1 <:+: word)) = true := by
  simp only [List.all_eq_true, Bool.and_eq_true, Bool.not_eq_true', bne_iff_ne,
    decide_eq_false_iff_not]
  constructor
  · intro h
    exact ⟨fun c hc => ⟨⟨h.not_blank c hc, (h.not_parenthesis c hc).1⟩,
      (h.not_parenthesis c hc).2⟩, h.not_symbol⟩
  · rintro ⟨hChars, hSymbols⟩
    exact ⟨fun c hc => (hChars c hc).1.1, fun c hc => ⟨(hChars c hc).1.2, (hChars c hc).2⟩,
      hSymbols⟩

instance (word : List Char) : Decidable (Unbroken word) := decidable_of_iff' _ unbroken_iff_all

/-- A part of a run without a break has no break either. -/
theorem Unbroken.of_infix {part : List Char} (h : Unbroken word) (hPart : part <:+: word) :
    Unbroken part := by
  refine ⟨?_, ?_, ?_⟩
  · intro c hc
    exact h.not_blank c (hPart.subset hc)
  · intro c hc
    exact h.not_parenthesis c (hPart.subset hc)
  · intro symbol hSymbol hInfix
    exact h.not_symbol symbol hSymbol (hInfix.trans hPart)

/-- A text that begins with nothing that could belong to the word or to the symbol before it. -/
def AtBoundary (rest : List Char) : Prop :=
  ∀ c ∈ rest.head?, isBlank c = true ∨ c = '(' ∨ c = ')'

theorem atBoundary_nil : AtBoundary [] := nofun

theorem atBoundary_cons {c : Char} (h : isBlank c = true ∨ c = '(' ∨ c = ')') :
    AtBoundary (c :: rest) := by
  intro c' hc'
  cases hc'
  exact h

theorem atBoundary_blank : AtBoundary (' ' :: rest) := atBoundary_cons (.inl rfl)

theorem atBoundary_closing : AtBoundary (')' :: rest) := atBoundary_cons (.inr (.inr rfl))

/-- The characters of a symbol are neither blanks nor parentheses. -/
theorem not_boundary_of_mem_symbol {symbol : List Char × Kind} (h : symbol ∈ symbols) {c : Char}
    (hc : c ∈ symbol.1) : ¬ (isBlank c = true ∨ c = '(' ∨ c = ')') := by
  have hAll : symbols.all (fun symbol =>
      symbol.1.all fun c => !(isBlank c || c == '(' || c == ')')) = true := by decide
  have hNot := List.all_eq_true.mp (List.all_eq_true.mp hAll symbol h) c hc
  simpa [and_assoc] using hNot

/-- A symbol that starts within a word ends within it. -/
theorem within_of_mem_symbols {symbol : List Char × Kind} (hSymbol : symbol ∈ symbols)
    (hRest : AtBoundary rest) (h : symbol.1 <+: word ++ rest) : symbol.1 <+: word := by
  rcases List.prefix_or_prefix_of_prefix h (List.prefix_append word rest) with hWithin | hBeyond
  · exact hWithin
  · obtain ⟨tail, hTail⟩ := hBeyond
    rw [← hTail, List.prefix_append_right_inj] at h
    cases tail with
    | nil =>
      have hEq : symbol.1 = word := by rw [← hTail, List.append_nil]
      exact hEq ▸ List.prefix_rfl
    | cons c tail =>
      -- the first character beyond the word would be a character of the symbol
      obtain ⟨after, rfl⟩ := h
      have hMem : c ∈ symbol.1 := hTail ▸ List.mem_append_right word List.mem_cons_self
      exact absurd (hRest c rfl) (not_boundary_of_mem_symbol hSymbol hMem)

theorem symbolAt?_eq_none_iff {text : List Char} :
    symbolAt? text = none ↔ ∀ symbol ∈ symbols, ¬ symbol.1 <+: text := by
  unfold symbolAt?
  rw [List.find?_eq_none]
  simp only [List.isPrefixOf_iff_prefix]

/-- No symbol starts at the beginning of a run without a break, even with what stands behind it. -/
theorem symbolAt?_unbroken (h : Unbroken word) (hRest : AtBoundary rest) :
    symbolAt? (word ++ rest) = none := by
  rw [symbolAt?_eq_none_iff]
  intro symbol hSymbol hPrefix
  exact h.not_symbol symbol hSymbol (within_of_mem_symbols hSymbol hRest hPrefix).isInfix

/-! ## A run without a break is a word -/

/-- A word goes on at a character that is no blank, no parenthesis and no start of a symbol. -/
theorem endsWord_cons_eq_false_iff {c : Char} :
    endsWord (c :: rest) = false ↔
      isBlank c = false ∧ (c ≠ '(' ∧ c ≠ ')') ∧ symbolAt? (c :: rest) = none := by
  simp [endsWord, and_assoc]

/-- A word ends at a boundary. -/
theorem endsWord_of_atBoundary (h : AtBoundary rest) : endsWord rest = true := by
  cases rest with
  | nil => rfl
  | cons c rest =>
    rcases h c rfl with hBlank | rfl | rfl
    · simp [endsWord, hBlank]
    · rfl
    · rfl

/-- Nothing ends a word before it is over, if this text comes after it. -/
def GoesOn (word rest : List Char) : Prop :=
  ∀ part, part <:+ word → part ≠ [] → endsWord (part ++ rest) = false

/-- A run without a break goes on as a word up to the boundary behind it. -/
theorem Unbroken.goesOn (h : Unbroken word) (hRest : AtBoundary rest) : GoesOn word rest := by
  intro part hPart hNe
  -- what is left of a run without a break is without a break
  have hLeft : Unbroken part := h.of_infix hPart.isInfix
  obtain ⟨c, part, rfl⟩ := List.exists_cons_of_ne_nil hNe
  rw [List.cons_append, endsWord_cons_eq_false_iff]
  exact ⟨hLeft.not_blank c List.mem_cons_self, hLeft.not_parenthesis c List.mem_cons_self,
    symbolAt?_unbroken hLeft hRest⟩

namespace GoesOn

theorem of_suffix {part : List Char} (h : GoesOn word rest) (hPart : part <:+ word) :
    GoesOn part rest :=
  fun part' hPart' => h part' (hPart'.trans hPart)

/-- The length of a word is counted up to where it ends. -/
theorem wordLength_append (h : GoesOn word rest) (hEnds : endsWord rest = true) (n : Nat) :
    wordLength (word ++ rest) n = n + word.length := by
  induction word generalizing n with
  | nil =>
    cases rest with
    | nil => rfl
    | cons c rest =>
      rw [List.nil_append, wordLength, if_pos hEnds]
      rfl
  | cons c word ih =>
    -- the word does not end at its first character, and the rest of it goes on
    have hFirst := h (c :: word) List.suffix_rfl (List.cons_ne_nil c word)
    rw [List.cons_append] at hFirst
    rw [List.cons_append, wordLength, hFirst, if_neg Bool.false_ne_true,
      ih (h.of_suffix (List.suffix_cons c word)), List.length_cons]
    omega

/-- A word that goes on until it ends is cut off as a whole. -/
theorem lexeme_append {c : Char} (h : GoesOn (c :: word) rest) (hEnds : endsWord rest = true) :
    lexeme c (word ++ rest) = (wordKind (c :: word), c :: word) := by
  have hFirst := h (c :: word) List.suffix_rfl (List.cons_ne_nil c word)
  rw [List.cons_append, endsWord_cons_eq_false_iff] at hFirst
  obtain ⟨-, ⟨hOpening, hClosing⟩, hSymbol⟩ := hFirst
  have hTake : (c :: (word ++ rest)).take (wordLength (word ++ rest) 1) = c :: word := by
    rw [(h.of_suffix (List.suffix_cons c word)).wordLength_append hEnds, Nat.add_comm,
      List.take_succ_cons, List.take_left]
  rw [lexeme, if_neg hOpening, if_neg hClosing, hSymbol]
  simp only [hTake]

end GoesOn

/-- A word is a variable if and only if it is no keyword. -/
theorem wordKind_eq_name_iff :
    wordKind word = .name ↔ ∀ keyword ∈ keywords, keyword.1 ≠ word.map Char.toUpper := by
  unfold wordKind
  split
  next found hFound =>
    -- a keyword was found, and no keyword stands for a variable
    have hAll : ∀ keyword ∈ keywords, keyword.2 ≠ .name := by decide
    have hMem : found ∈ keywords := List.mem_of_find?_eq_some hFound
    have hSpelling : found.1 = word.map Char.toUpper := by
      have hFits := List.find?_some hFound
      exact beq_iff_eq.mp hFits
    constructor
    · intro h
      exact absurd h (hAll found hMem)
    · intro h
      exact absurd hSpelling (h found hMem)
  next hNone =>
    refine iff_of_true rfl ?_
    intro keyword hKeyword hEq
    exact List.find?_eq_none.mp hNone keyword hKeyword (beq_iff_eq.mpr hEq)

/-- A name that a text can spell is a run without a break that stands for a variable. -/
theorem isWord_iff {name : String} : IsWord name ↔ name ≠ "" ∧ Unbroken name.toList ∧
    wordKind name.toList = .name := by
  rw [wordKind_eq_name_iff]
  constructor
  · intro h
    exact ⟨h.nonempty, ⟨h.not_blank, h.not_parenthesis, h.not_symbol⟩, h.not_keyword⟩
  · rintro ⟨hNe, hWord, hKeyword⟩
    exact ⟨hNe, hWord.not_blank, hWord.not_parenthesis, hWord.not_symbol, hKeyword⟩

instance (name : String) : Decidable (IsWord name) := decidable_of_iff' _ isWord_iff

/-! ## A word is a run without a break -/

/-- A text starts with as much of a word as goes on until the word ends. -/
theorem exists_goesOn (text : List Char) :
    ∃ word rest, text = word ++ rest ∧ endsWord rest = true ∧ GoesOn word rest := by
  have hNil : ∀ rest, GoesOn [] rest := by
    intro rest part hPart hNe
    exact absurd (List.suffix_nil.mp hPart) hNe
  induction text with
  | nil => exact ⟨[], [], rfl, rfl, hNil []⟩
  | cons c text ih =>
    -- a word that ends here is empty; otherwise it has this character before the rest
    by_cases hEnds : endsWord (c :: text) = true
    · exact ⟨[], c :: text, rfl, hEnds, hNil _⟩
    · obtain ⟨word, rest, rfl, hRest, hGoesOn⟩ := ih
      refine ⟨c :: word, rest, rfl, hRest, ?_⟩
      intro part hPart hNe
      rcases List.suffix_cons_iff.mp hPart with rfl | hPart
      · exact Bool.eq_false_iff.mpr hEnds
      · exact hGoesOn part hPart hNe

/-- What goes on is without a break. -/
theorem GoesOn.unbroken (h : GoesOn word rest) : Unbroken word := by
  have hChar : ∀ c ∈ word, isBlank c = false ∧ c ≠ '(' ∧ c ≠ ')' := by
    intro c hc
    obtain ⟨front, back, rfl⟩ := List.append_of_mem hc
    have hFirst := h (c :: back) (List.suffix_append _ _) (List.cons_ne_nil _ _)
    rw [List.cons_append, endsWord_cons_eq_false_iff] at hFirst
    exact ⟨hFirst.1, hFirst.2.1⟩
  refine ⟨fun c hc => (hChar c hc).1, fun c hc => (hChar c hc).2, ?_⟩
  -- a symbol within the word would start a part that a word ends in
  rintro symbol hSymbol ⟨front, back, rfl⟩
  obtain ⟨c, spelling, hSpelling⟩ := List.exists_cons_of_ne_nil (symbol_ne_nil hSymbol)
  rw [List.append_assoc, hSpelling] at h
  have hFirst := h (c :: spelling ++ back) (List.suffix_append _ _) (List.cons_ne_nil _ _)
  rw [List.cons_append, List.cons_append, endsWord_cons_eq_false_iff] at hFirst
  have hNone := symbolAt?_eq_none_iff.mp hFirst.2.2 symbol hSymbol
  rw [hSpelling] at hNone
  exact hNone ⟨back ++ rest, by simp⟩

/-! ## Tokens -/

/-- **All that can be cut**: a parenthesis, a symbol, or a word that goes on until it ends. -/
theorem lexeme_cases {c : Char} (hc : isBlank c = false) :
    (c = '(' ∧ lexeme c rest = (.opening, [c])) ∨ (c = ')' ∧ lexeme c rest = (.closing, [c])) ∨
    (∃ symbol, symbolAt? (c :: rest) = some symbol ∧ lexeme c rest = (symbol.2, symbol.1)) ∨
    ∃ word after, rest = word ++ after ∧ lexeme c rest = (wordKind (c :: word), c :: word) ∧
      endsWord after = true ∧ GoesOn (c :: word) after := by
  by_cases hOpening : c = '('
  · exact .inl ⟨hOpening, by rw [lexeme, if_pos hOpening]⟩
  by_cases hClosing : c = ')'
  · exact .inr (.inl ⟨hClosing, by rw [lexeme, if_neg hOpening, if_pos hClosing]⟩)
  cases hSymbol : symbolAt? (c :: rest) with
  | some symbol =>
    refine .inr (.inr (.inl ⟨symbol, rfl, ?_⟩))
    rw [lexeme, if_neg hOpening, if_neg hClosing, hSymbol]
  | none =>
    obtain ⟨word, after, rfl, hAfter, hGoesOn⟩ := exists_goesOn rest
    -- nothing ends the word at its first character either
    have hWord : GoesOn (c :: word) after := by
      intro part hPart hNe
      rcases List.suffix_cons_iff.mp hPart with rfl | hPart
      · exact endsWord_cons_eq_false_iff.mpr ⟨hc, ⟨hOpening, hClosing⟩, hSymbol⟩
      · exact hGoesOn part hPart hNe
    exact .inr (.inr (.inr ⟨word, after, rfl, hWord.lexeme_append hAfter, hAfter, hWord⟩))

/-- A variable that is cut is a name that a text can spell. -/
theorem isWord_of_lexeme {c : Char} (hc : isBlank c = false) (h : (lexeme c rest).1 = .name) :
    IsWord (String.ofList (lexeme c rest).2) := by
  rcases @lexeme_cases rest c hc with ⟨-, hEq⟩ | ⟨-, hEq⟩ | ⟨symbol, hSymbol, hEq⟩ |
    ⟨word, after, -, hEq, -, hGoesOn⟩
  -- parentheses are no variables
  · rw [hEq] at h
    cases h
  · rw [hEq] at h
    cases h
  · -- no symbol stands for a variable
    have hAll : ∀ symbol ∈ symbols, symbol.2 ≠ .name := by decide
    rw [hEq] at h
    exact absurd h (hAll symbol (symbolAt?_eq_some hSymbol).1)
  · rw [hEq] at h ⊢
    refine isWord_iff.mpr ⟨?_, ?_, ?_⟩
    · simp
    · rw [String.toList_ofList]
      exact hGoesOn.unbroken
    · rw [String.toList_ofList]
      exact h

/-- What holds of every token as it is cut holds of all tokens found. -/
theorem forall_mem_scan {P : Token → Prop}
    (h : ∀ c rest offset, isBlank c = false →
      P ⟨(lexeme c rest).1, String.ofList (lexeme c rest).2, offset⟩)
    (text : List Char) (offset skip : Nat) (found : Array Token) (hFound : ∀ t ∈ found, P t) :
    ∀ t ∈ scan text offset skip found, P t := by
  -- the invariant is that all tokens found so far have the property
  induction text generalizing offset skip found with
  | nil => exact hFound
  | cons c rest ih =>
    cases skip with
    | succ skip => exact ih _ _ found hFound
    | zero =>
      rw [scan]
      split
      next => exact ih _ _ found hFound
      next hBlank =>
        apply ih
        intro t ht
        rcases Array.mem_push.mp ht with ht | rfl
        · exact hFound t ht
        · exact h c rest offset (Bool.eq_false_iff.mpr hBlank)

/-- Every variable among the tokens of a text is a word. -/
theorem isWord_of_mem_ofText {text : String} {t : Token} (ht : t ∈ ofText text)
    (hKind : t.kind = .name) : IsWord t.text := by
  refine forall_mem_scan (P := fun t => t.kind = .name → IsWord t.text) ?_ _ _ _ _ ?_ t ht hKind
  · intro c rest offset hc
    exact isWord_of_lexeme hc
  · nofun

/-! ## Senses -/

/-- What a token stands for and, of a variable, the name. -/
def sense (t : Token) : Kind × Option String :=
  (t.kind, if t.kind = .name then some t.text else none)

theorem kind_eq_of_sense_eq {t t' : Token} (h : t.sense = t'.sense) : t.kind = t'.kind :=
  congrArg Prod.fst h

/-- Variables of the same sense have the same name. -/
theorem text_eq_of_sense_eq {t t' : Token} (h : t.sense = t'.sense) (hKind : t.kind = .name) :
    t.text = t'.text := by
  have hKind' : t'.kind = .name := kind_eq_of_sense_eq h ▸ hKind
  unfold sense at h
  rw [if_pos hKind, if_pos hKind'] at h
  exact Option.some.inj (congrArg Prod.snd h)

/-- A token that is no variable; its spelling and its place are left open. -/
def sign (kind : Kind) : Token := ⟨kind, "", 0⟩

/-- The senses of a text's tokens. -/
def senses (text : List Char) : List (Kind × Option String) :=
  (scan text 0 0 #[]).toList.map sense

/-- Offsets do not matter for the senses. -/
theorem map_sense_scan (text : List Char) (offset offset' skip : Nat) {found found' : Array Token}
    (h : found.toList.map sense = found'.toList.map sense) :
    (scan text offset skip found).toList.map sense =
      (scan text offset' skip found').toList.map sense := by
  induction text generalizing offset offset' skip found found' with
  | nil => exact h
  | cons c rest ih =>
    cases skip with
    | succ skip => exact ih _ _ skip h
    | zero =>
      rw [scan, scan]
      split
      · exact ih _ _ 0 h
      -- the token that is cut here has the same sense at either offset
      · apply ih
        rw [Array.toList_push, Array.toList_push, List.map_append, List.map_append, h]
        rfl

theorem senses_nil : senses [] = [] := rfl

theorem senses_blank {c : Char} (h : isBlank c = true) : senses (c :: rest) = senses rest := by
  unfold senses
  rw [scan, if_pos h]
  exact map_sense_scan rest _ _ 0 rfl

/-- The token that a text starts with comes first, and the text after it is cut as if it stood
alone. -/
theorem senses_lexeme {c : Char} {kind : Kind} {text : List Char} (hc : isBlank c = false)
    (h : lexeme c (text ++ rest) = (kind, c :: text)) :
    senses (c :: text ++ rest) = sense ⟨kind, String.ofList (c :: text), 0⟩ :: senses rest := by
  unfold senses
  rw [List.cons_append, scan, hc, if_neg Bool.false_ne_true, h]
  -- the scan passes over the other characters of the token
  simp only [List.length_cons, Nat.add_sub_cancel]
  rw [scan_skip _ _ _ _ (by simp), List.drop_left, toList_scan, List.map_append,
    map_sense_scan rest _ 0 0 (Eq.refl (List.map sense (#[] : Array Token).toList))]
  rfl

theorem senses_opening : senses ('(' :: rest) = (.opening, none) :: senses rest :=
  @senses_lexeme rest '(' .opening [] rfl rfl

theorem senses_closing : senses (')' :: rest) = (.closing, none) :: senses rest :=
  @senses_lexeme rest ')' .closing [] rfl rfl

/-- A run without a break is cut as one word. -/
theorem senses_unbroken (hWord : Unbroken word) (hNe : word ≠ []) (hRest : AtBoundary rest) :
    senses (word ++ rest) = sense ⟨wordKind word, String.ofList word, 0⟩ :: senses rest := by
  obtain ⟨c, word, rfl⟩ := List.exists_cons_of_ne_nil hNe
  exact senses_lexeme (hWord.not_blank c List.mem_cons_self)
    ((hWord.goesOn hRest).lexeme_append (endsWord_of_atBoundary hRest))

/-- A name at a boundary is read as the variable it is. -/
theorem senses_name {name : String} (h : IsWord name) (hRest : AtBoundary rest) :
    senses (name.toList ++ rest) = (.name, some name) :: senses rest := by
  have hNe : name.toList ≠ [] := by
    intro hNil
    exact h.nonempty (String.toList_eq_nil_iff.mp hNil)
  -- a word has no break within it and is no keyword
  obtain ⟨-, hWord, hKind⟩ := isWord_iff.mp h
  rw [senses_unbroken hWord hNe hRest, hKind, String.ofList_toList]
  rfl

end Propositional.Token
