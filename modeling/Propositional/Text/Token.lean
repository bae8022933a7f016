import Propositional.Connective

/-!
# Propositional — tokens

The words of a written formula. Between blanks and parentheses, the text is cut
at every place where the spelling of an operator starts; what lies between two
cuts is a word, and a word is a variable unless it spells a keyword. Operators
have symbols, which are recognised anywhere, and some have keywords, which must
be whole words and may be written in any case.

Every token keeps its spelling and the number of characters before it. What separates
words are the characters with the Unicode property `White_Space`, and no others: a
zero-width space, for one, is part of a word. Not every name is a word that a text can
spell, and `IsWord` says which ones are.
-/

namespace Propositional

/-- The code points with the property `White_Space`. -/
def blankCodes : List Nat :=
  [0x9, 0xA, 0xB, 0xC, 0xD, 0x20, 0x85, 0xA0, 0x1680,
   0x2000, 0x2001, 0x2002, 0x2003, 0x2004, 0x2005, 0x2006, 0x2007, 0x2008, 0x2009, 0x200A,
   0x2028, 0x2029, 0x202F, 0x205F, 0x3000]

/-- Whether a character separates words. -/
def isBlank (c : Char) : Bool := blankCodes.contains c.toNat

/-- What a token stands for. -/
inductive Token.Kind where
  | name
  | negation
  | connective (op : Connective)
  | opening
  | closing
  deriving DecidableEq

/-- A piece of a written formula, as it was spelled and where it begins. -/
structure Token where
  kind : Token.Kind
  text : String
  offset : Nat
  deriving DecidableEq

namespace Token

/-! ## Spellings -/

/-- The symbols. A symbol stands before every symbol that it begins with. -/
def symbols : List (List Char × Kind) :=
  [(['<', '=', '>'], .connective .iff), (['<', '-', '>'], .connective .iff),
   (['=', '>'], .connective .implies), (['-', '>'], .connective .implies),
   (['&', '&'], .connective .and), (['|', '|'], .connective .or),
   (['&'], .connective .and), (['|'], .connective .or), (['^'], .connective .xor),
   (['!'], .negation), (['~'], .negation), (['¬'], .negation),
   (['∧'], .connective .and), (['∨'], .connective .or), (['⊕'], .connective .xor),
   (['⇒'], .connective .implies), (['→'], .connective .implies),
   (['⇔'], .connective .iff), (['↔'], .connective .iff)]

/-- The keywords, in capitals. -/
def keywords : List (List Char × Kind) :=
  [(['N', 'O', 'T'], .negation), (['A', 'N', 'D'], .connective .and),
   (['O', 'R'], .connective .or), (['X', 'O', 'R'], .connective .xor)]

/-- The symbol that a text starts with. -/
def symbolAt? (text : List Char) : Option (List Char × Kind) :=
  symbols.find? fun symbol => symbol.1.isPrefixOf text

/-- What a word stands for: a keyword in any case, or else a variable. Only the letters of ASCII
have two cases here. -/
def wordKind (word : List Char) : Kind :=
  match keywords.find? fun keyword => keyword.1 == word.map Char.toUpper with
  | some keyword => keyword.2
  | none => .name

/-! ## Cutting a text -/

/-- Whether a word that reaches up to here ends: at a blank, at a parenthesis, at a symbol and at
the end of the text. -/
def endsWord : List Char → Bool
  | [] => true
  | c :: rest => isBlank c || c == '(' || c == ')' || (symbolAt? (c :: rest)).isSome

/-- The length of the word that a text starts with, added to a number. -/
def wordLength : List Char → Nat → Nat
  | [], n => n
  | c :: rest, n => if endsWord (c :: rest) then n else wordLength rest (n + 1)

/-- The kind and the characters of the token that starts with the first character, which is not
blank. -/
def lexeme (c : Char) (rest : List Char) : Kind × List Char :=
  if c = '(' then (.opening, [c])
  else if c = ')' then (.closing, [c])
  else match symbolAt? (c :: rest) with
    | some (symbol, kind) => (kind, symbol)
    | none =>
      let word := (c :: rest).take (wordLength rest 1)
      (wordKind word, word)

/-- Cuts a text that begins at an offset. The first `skip` characters belong to the last token
found, and the tokens found so far come first. -/
def scan : List Char → (offset skip : Nat) → Array Token → Array Token
  | [], _, _, found => found
  | _ :: rest, offset, skip + 1, found => scan rest (offset + 1) skip found
  | c :: rest, offset, 0, found =>
    if isBlank c then scan rest (offset + 1) 0 found
    else
      let (kind, text) := lexeme c rest
      scan rest (offset + 1) (text.length - 1) (found.push ⟨kind, String.ofList text, offset⟩)

/-- The tokens of a text. -/
def ofText (text : String) : Array Token := scan text.toList 0 0 #[]

/-! ## What a cut takes -/

/-- What is found at a text is a symbol that the text starts with. -/
theorem symbolAt?_eq_some {text : List Char} {symbol : List Char × Kind}
    (h : symbolAt? text = some symbol) : symbol ∈ symbols ∧ symbol.1 <+: text := by
  obtain ⟨hStart, hMem⟩ := And.intro (List.find?_some h) (List.mem_of_find?_eq_some h)
  exact ⟨hMem, List.isPrefixOf_iff_prefix.1 hStart⟩

/-- Every symbol has a character, so that cutting it off leaves less. -/
theorem symbol_ne_nil {symbol : List Char × Kind} (h : symbol ∈ symbols) : symbol.1 ≠ [] := by
  have hAll : ∀ symbol ∈ symbols, symbol.1 ≠ [] := by decide
  exact hAll symbol h

/-- Tokens found earlier do not influence those that follow. -/
theorem toList_scan (text : List Char) (offset skip : Nat) (found : Array Token) :
    (scan text offset skip found).toList =
      found.toList ++ (scan text offset skip #[]).toList := by
  induction text generalizing offset skip found with
  | nil => simp [scan]
  | cons c rest ih =>
    cases skip with
    | succ skip => exact ih (offset + 1) skip found
    | zero =>
      simp only [scan]
      split
      · exact ih (offset + 1) 0 found
      -- the token is added behind those found, so it comes before the rest
      · rw [ih _ _ (found.push _), ih _ _ (#[].push _)]
        simp

/-- The characters of the last token found are passed over. -/
theorem scan_skip (text : List Char) (offset skip : Nat) (found : Array Token)
    (h : skip ≤ text.length) :
    scan text offset skip found = scan (text.drop skip) (offset + skip) 0 found := by
  induction skip generalizing text offset with
  | zero => rfl
  | succ skip ih =>
    cases text with
    | nil => simp at h
    | cons c rest =>
      -- the character at hand belongs to the last token
      rw [scan, List.drop_succ_cons, ih rest (offset + 1) (by simpa using h)]
      congr 1
      omega

end Token

/-! ## Words -/

/-- A name that a text can spell as a variable: it has characters, none of them a blank or a
parenthesis, no symbol is spelled anywhere inside, and it is no keyword. -/
structure IsWord (name : String) : Prop where
  nonempty : name ≠ ""
  not_blank : ∀ c ∈ name.toList, isBlank c = false
  not_parenthesis : ∀ c ∈ name.toList, c ≠ '(' ∧ c ≠ ')'
  not_symbol : ∀ symbol ∈ Token.symbols, ¬ symbol.1 <:+: name.toList
  not_keyword : ∀ keyword ∈ Token.keywords, keyword.1 ≠ name.toList.map Char.toUpper

end Propositional
