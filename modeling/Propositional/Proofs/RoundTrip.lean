import Propositional.Proofs.Printing
import Propositional.Proofs.Reading

/-!
# Propositional — printing and reading back

What the printer writes derives the regrouped formula, and what is derived is read
unless an operand is beyond the limit. So a formula whose names are words comes back
from its text, with its chains grouped to the right, or the text is too deep; there
is no third outcome.

A text that is read gives such a formula, because a variable that was cut is a word.
It need not come back, though. The limit counts the levels of a text, and the printer
writes other parentheses than the text had: a chain of implications is read at one
level for each operator, and printed with a pair of parentheses besides
(`Formula.implications_too_deep`).

Main results:

* `Formula.parse_render` — the text of a formula is read as the regrouped formula.
* `Formula.parse_render_of_parse` — what was read is read again, with the same names
  and the same values, if and only if its text stays within the limit.
-/

namespace Propositional

variable {f : Formula} {style : Notation} {text : String}

namespace Formula

/-! ## Formulas with words -/

/-- The text of a formula derives the regrouped formula. -/
theorem derives_render (hWords : f.HasWords) (hStyle : style ≠ .latex) :
    Derives .expression 0 (Token.ofText (f.render style)).toList f.regroup
      (f.textLevel none 0) := by
  have hSenses := senses_renderUnder hStyle hWords none Token.atBoundary_nil
  rw [List.append_nil, Token.senses_nil, List.append_nil] at hSenses
  exact (f.prints.expression none 0).congr hSenses

/-- The two outcomes of reading a text that was printed. -/
theorem reads_render (hWords : f.HasWords) (hStyle : style ≠ .latex) :
    (f.textLevel none 0 ≤ maxLevel → parse (f.render style) = .ok f.regroup) ∧
      (maxLevel < f.textLevel none 0 →
        ∃ offset, parse (f.render style) = .error ⟨f.render style, .tooDeep offset⟩) :=
  answers_of_derives (derives_render hWords hStyle)

theorem isWord_B : IsWord "B" := by decide

/-- **Printing and reading agree.** The text of a formula whose names are words derives the
regrouped formula, with the deepest operand at the level counted. Within the limit it is read so,
and beyond the limit it is refused as too deep. Regrouping keeps all values; it groups every chain
to the right, and a formula whose chains are grouped so already comes back as it was. -/
theorem parse_render (hWords : f.HasWords) (hStyle : style ≠ .latex) :
    Derives .expression 0 (Token.ofText (f.render style)).toList f.regroup (f.textLevel none 0) ∧
      (f.textLevel none 0 ≤ maxLevel → parse (f.render style) = .ok f.regroup) ∧
      (maxLevel < f.textLevel none 0 →
        ∃ offset, parse (f.render style) = .error ⟨f.render style, .tooDeep offset⟩) ∧
      f.regroup.Equivalent f ∧ f.regroup.GroupsRight ∧ (f.GroupsRight → f.regroup = f) := by
  obtain ⟨hOk, hTooDeep⟩ := reads_render hWords hStyle
  exact ⟨derives_render hWords hStyle, hOk, hTooDeep, f.eval_regroup, f.groupsRight_regroup,
    regroup_eq_self⟩

/-- A chain that was grouped to the left comes back grouped to the right, with the mark on what
stood in parentheses. -/
theorem parse_render_left_chain :
    let f := join .and (join .and (var "A") (var "B")) (binary .implies (var "A") (var "B") true)
    let g := join .and (var "A") (join .and (var "B") (binary .implies (var "A") (var "B") true))
    f.HasWords ∧ parse (f.render .unicode) = .ok g ∧ parse (f.render .ascii) = .ok g := by
  intro f g
  have hWords : f.HasWords := by
    intro name hName
    have hNames : name = "A" ∨ name = "B" := by
      simpa [f, join, var, or_comm, or_left_comm, or_assoc] using hName
    rcases hNames with rfl | rfl
    · exact isWord_A
    · exact isWord_B
  -- the chain is grouped to the right; the marked implication keeps its parentheses
  have hRegroup : f.regroup = g := by decide
  have hLevel : f.textLevel none 0 ≤ maxLevel := by decide
  rw [← hRegroup]
  exact ⟨hWords, (parse_render hWords (by decide)).2.1 hLevel,
    (parse_render hWords (by decide)).2.1 hLevel⟩

/-! ## Whatever is read -/

/-- The names of what is derived are spelled by the variables among the tokens. -/
theorem exists_token_of_mem_names {phrase : Phrase} {level deepest : Nat} {tokens : List Token}
    (h : Derives phrase level tokens f deepest) {name : String} (hName : name ∈ f.names) :
    ∃ t ∈ tokens, t.kind = .name ∧ t.text = name := by
  -- a name comes in by the first rule, and each other rule keeps the tokens of its parts
  induction h with
  | name name' offset =>
    have hEq : name = name' := by simpa [var] using hName
    exact ⟨_, List.mem_cons_self, rfl, hEq.symm⟩
  | parentheses opening closing _ _ _ ih =>
    obtain ⟨t, ht, hVariable⟩ := ih hName
    exact ⟨t, List.mem_append_left _ (List.mem_cons_of_mem _ ht), hVariable⟩
  | plain _ ih => exact ih hName
  | negated _ _ _ ih =>
    rw [names_negate] at hName
    obtain ⟨t, ht, hVariable⟩ := ih hName
    exact ⟨t, List.mem_cons_of_mem _ ht, hVariable⟩
  | last _ ih => exact ih hName
  | chain _ _ _ _ _ ih ihRest =>
    rw [join, names_binary, List.mem_append] at hName
    rcases hName with hName | hName
    · obtain ⟨t, ht, hVariable⟩ := ih hName
      exact ⟨t, List.mem_append_left _ ht, hVariable⟩
    · obtain ⟨t, ht, hVariable⟩ := ihRest hName
      exact ⟨t, List.mem_append_right _ (List.mem_cons_of_mem _ ht), hVariable⟩

/-- The names of a formula that was read are words. -/
theorem hasWords_of_parse_eq_ok (h : parse text = .ok f) : f.HasWords := by
  intro name hName
  -- the name was spelled by a token, and the token was cut from the text
  obtain ⟨deepest, hDerives, -⟩ := exists_derives_of_parse_eq_ok h
  obtain ⟨t, ht, hKind, rfl⟩ := exists_token_of_mem_names hDerives hName
  exact Token.isWord_of_mem_ofText (Array.mem_toList_iff.mp ht) hKind

/-! ## Chains of implications -/

/-- Each implication on a right side is printed in parentheses and so leads two levels deeper. -/
theorem textLevel_implications (n level : Nat) :
    (implications n).textLevel (some .implies) level = level + 2 * n := by
  induction n generalizing level with
  | zero => rfl
  | succ n ih =>
    have hRight : (implications (n + 1)).textLevel (some .implies) level =
        max (level + 1) ((implications n).textLevel (some .implies) (level + 1 + 1)) := rfl
    rw [hRight, ih]
    omega

/-- A chain of implications is printed two levels deeper for each of its implications. -/
theorem textLevel_implications_alone (n : Nat) :
    (implications (n + 1)).textLevel none 0 = 2 * n + 1 := by
  have hRight : (implications (n + 1)).textLevel none 0 =
      max 0 ((implications n).textLevel (some .implies) 1) := rfl
  rw [hRight, textLevel_implications]
  omega

/-- A long chain of implications is read, but not what it is printed as. -/
theorem implications_too_deep {n : Nat} (hLow : maxLevel < 2 * n + 1) (hHigh : n + 1 ≤ maxLevel)
    (hStyle : style ≠ .latex) :
    parse (implicationText (n + 1)) = .ok (implications (n + 1)) ∧
      ∃ offset, parse ((implications (n + 1)).render style) =
        .error ⟨(implications (n + 1)).render style, .tooDeep offset⟩ := by
  have hRead := parse_implications hHigh
  refine ⟨hRead, (reads_render (hasWords_of_parse_eq_ok hRead) hStyle).2 ?_⟩
  rw [textLevel_implications_alone]
  exact hLow

/-! ## Reading again -/

/-- **Whatever is read is printed and read again.** If the text that a formula is printed as stays
within the limit, it is read as a formula with the same names and the same values. If it does not,
it is refused as too deep. -/
theorem parse_render_of_parse (h : parse text = .ok f) (hStyle : style ≠ .latex) :
    (f.textLevel none 0 ≤ maxLevel → ∃ g, parse (f.render style) = .ok g ∧
        g.vocabulary = f.vocabulary ∧ g.Equivalent f) ∧
      (maxLevel < f.textLevel none 0 →
        ∃ offset, parse (f.render style) = .error ⟨f.render style, .tooDeep offset⟩) := by
  obtain ⟨hOk, hTooDeep⟩ := reads_render (hasWords_of_parse_eq_ok h) hStyle
  refine ⟨?_, hTooDeep⟩
  intro hLevel
  exact ⟨f.regroup, hOk hLevel, f.restates_regroup.vocabulary_eq, f.restates_regroup.equivalent⟩

/-- Both outcomes occur: two implications come back, and 129 do not. -/
theorem parse_render_implications :
    (parse (implicationText 2) = .ok (implications 2) ∧
      ∃ g, parse ((implications 2).render .ascii) = .ok g ∧
        g.vocabulary = (implications 2).vocabulary ∧ g.Equivalent (implications 2)) ∧
    (parse (implicationText 129) = .ok (implications 129) ∧
      ∃ offset, parse ((implications 129).render .ascii) =
        .error ⟨(implications 129).render .ascii, .tooDeep offset⟩) := by
  have hShort : parse (implicationText 2) = .ok (implications 2) := parse_implications (by decide)
  have hLong : parse (implicationText 129) = .ok (implications 129) :=
    parse_implications (by decide)
  refine ⟨⟨hShort, (parse_render_of_parse hShort (by decide)).1 (by decide)⟩, hLong, ?_⟩
  -- 129 operators, and 128 parentheses that the text has more than the one read
  apply (parse_render_of_parse hLong (by decide)).2
  rw [textLevel_implications_alone]
  decide

/-- Not everything that is read comes back: a chain of 129 implications does not. -/
theorem exists_parse_not_parse_render :
    ¬ ∀ (text : String) (f : Formula) (style : Notation), parse text = .ok f → style ≠ .latex →
      ∃ g, parse (f.render style) = .ok g ∧ g.vocabulary = f.vocabulary ∧ g.Equivalent f := by
  intro hAll
  obtain ⟨hRead, offset, hError⟩ :=
    @implications_too_deep .ascii 128 (by decide) (by decide) (by decide)
  obtain ⟨g, hOk, -⟩ := hAll _ _ .ascii hRead (by decide)
  rw [hError] at hOk
  cases hOk

end Formula

end Propositional
