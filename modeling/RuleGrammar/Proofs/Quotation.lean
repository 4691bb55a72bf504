import RuleGrammar.Proofs.Location
import RuleGrammar.Proofs.Rereading

/-!
# Names between quotes

A terminal is written between quotes, with a backslash before what would end the quotation too early.  The
lexer takes the quotation as one token, and the name is found again inside it.  Line breaks are the one
thing that quotes cannot hold: a quotation ends at the end of its line, and no written symbol has a name
with a line break.

* `backslashed_append`, `spanQuoted_backslashed_of_newline`: a written name up to its first line break.
* `lex_terminalText_of_oneLine`, `lex_terminalText_of_newline`: what the lexer makes of a written terminal.
* `newline_not_mem_of_isIdentifier`, `Automaton.newline_not_mem_of_classify`: the names of written symbols.
* `Quotes text name`: the text is one quotation of the name.
* `Grammar.ruleText_quotes_iff`: which names can be quoted.
-/

namespace RuleGrammar

namespace Token

variable {name : String}

/-! ### Line breaks -/

theorem backslashed_append (quote : Char) (xs ys : List Char) :
    backslashed quote (xs ++ ys) = backslashed quote xs ++ backslashed quote ys := by
  induction xs with
  | nil => rfl
  | cons c xs ih =>
      rw [List.cons_append, backslashed, backslashed]
      split
      · rw [ih, List.cons_append, List.cons_append]
      · rw [ih, List.cons_append]

/-- A written name is read up to its first line break, and the quotation is not closed there: a line break
is written without a backslash, and one would not help it. -/
theorem spanQuoted_backslashed_of_newline {quote : Char} (hquote : quote ≠ '\n') {line : List Char}
    (hline : ¬ '\n' ∈ line) (rest cs : List Char) :
    spanQuoted quote false (backslashed quote (line ++ '\n' :: rest) ++ cs)
      = (backslashed quote line, none) := by
  have hbreak : backslashed quote ('\n' :: rest) = '\n' :: backslashed quote rest := by
    rw [backslashed, if_neg]
    rintro (h | h)
    · exact hquote h.symm
    · cases h
  have hend : spanQuoted quote false ('\n' :: (backslashed quote rest ++ cs)) = ([], none) := by
    simp [spanQuoted, hquote.symm]
  rw [backslashed_append, hbreak, List.append_assoc, List.cons_append,
    spanQuoted_backslashed_append quote _ line hline, hend, List.append_nil]

theorem newline_not_mem_of_isIdentifier (h : IsIdentifier name) : ¬ '\n' ∈ name.toList := by
  obtain ⟨c, cs, hlist, hc, hcs⟩ := isIdentifier_iff.1 h
  have hrest : isNameRest '\n' = false := by decide +kernel
  rw [hlist, List.mem_cons, not_or]
  constructor
  · exact (ne_of_isNameStart hc (by decide +kernel)).symm
  · intro hmem
    rw [hcs _ hmem] at hrest
    cases hrest

/-! ### What the lexer makes of a written terminal -/

theorem toList_terminalText (hname : name ≠ "") : (terminalText name).toList =
    quoteFor name.toList :: (backslashed (quoteFor name.toList) name.toList ++ [quoteFor name.toList]) := by
  rw [terminalText, if_neg hname, String.toList_ofList]

theorem terminalText_ne_empty (hname : name ≠ "") : terminalText name ≠ "" := by
  intro hempty
  have hlist := toList_terminalText hname
  rw [hempty] at hlist
  cases hlist

/-- A written terminal begins with a quote, so the lexer begins with a quotation. -/
theorem lex_terminalText (hname : name ≠ "") :
    lex (terminalText name) = lexHead 0 (terminalText name).toList := by
  obtain ⟨_, _, hwhite, hslash⟩ := quoteFor_spec name.toList
  rw [lex, toList_terminalText hname, lexFrom_eq_lexHead hwhite hslash]

/-- A written name on one line is one token. -/
theorem lex_terminalText_of_oneLine (hname : name ≠ "") (hline : ¬ '\n' ∈ name.toList) :
    lex (terminalText name)
      = ⟨[⟨.string, terminalText name, ⟨0, (terminalText name).utf8ByteSize⟩⟩], none⟩ := by
  obtain ⟨hquote, hback, _⟩ := quoteFor_spec name.toList
  have hend : ∀ offset, lexFrom offset [] = ⟨[], none⟩ := fun offset => by
    rw [lexFrom_eq]
    rfl
  have htext := toList_terminalText hname
  rw [lex_terminalText hname, htext, lexHead, lexeme, if_pos hquote,
    spanQuoted_backslashed _ hback [] _ hline]
  dsimp only
  rw [hend, ofLexeme, ← htext, String.ofList_toList, ← utf8ByteSize_ofList, String.ofList_toList,
    Nat.zero_add]

/-- A written name with a line break is no token. -/
theorem lex_terminalText_of_newline (hname : name ≠ "") (hline : '\n' ∈ name.toList) :
    ∃ stop, lex (terminalText name) = ⟨[], some ⟨.unclosedString, ⟨0, stop⟩⟩⟩ := by
  obtain ⟨hquote, _⟩ := quoteFor_spec name.toList
  have hbreak : quoteFor name.toList ≠ '\n' := by
    intro h
    rw [h] at hquote
    cases hquote
  obtain ⟨line, rest, hlist, hfirst⟩ := List.eq_append_cons_of_mem hline
  have hspan := spanQuoted_backslashed_of_newline hbreak hfirst rest [quoteFor name.toList]
  rw [← hlist] at hspan
  rw [lex_terminalText hname, toList_terminalText hname, lexHead, lexeme, if_pos hquote, hspan]
  exact ⟨_, rfl⟩

end Token

/-! ### Written symbols -/

namespace Automaton

variable {name symbol : String}

/-- No written symbol has a name with a line break. -/
theorem newline_not_mem_of_classify
    (h : classify symbol = some (.terminal name) ∨ classify symbol = some (.nonterminal name)) :
    ¬ '\n' ∈ name.toList := by
  rcases h with h | h
  · exact legible_of_classify h
  · exact Token.newline_not_mem_of_isIdentifier (legible_of_classify h)

theorem classify_of_lex (hname : name ≠ "") (hsymbol : symbol ≠ "") {span : Span}
    (hlex : Token.lex symbol = ⟨[⟨.string, symbol, span⟩], none⟩)
    (hunquoted : Token.unquoted symbol = name) : classify symbol = some (.terminal name) := by
  rw [classify, if_neg hsymbol, hlex]
  dsimp only
  rw [if_pos rfl, hunquoted, if_neg hname]

theorem classify_of_fault (hsymbol : symbol ≠ "") {f : Fault}
    (hlex : Token.lex symbol = ⟨[], some f⟩) : classify symbol = none := by
  rw [classify, if_neg hsymbol, hlex]

end Automaton

/-! ### Which names can be quoted -/

/-- The text is one quotation from its first to its last character, the name is what stands inside it, and
as a written symbol the text stands for the terminal of that name. -/
structure Quotes (text name : String) : Prop where
  lexed : Token.lex text = ⟨[⟨.string, text, ⟨0, text.utf8ByteSize⟩⟩], none⟩
  unquoted : Token.unquoted text = name
  classified : Automaton.classify text = some (.terminal name)

namespace Grammar

/-- **Quotes hold exactly the names on one line.**  The text of a terminal with a name is one quotation of
this name if and only if the name has no line break.  Otherwise the lexer finds a quotation that is not
closed, and the text is no written symbol.  In turn, what a written symbol stands for never has a name
with a line break. -/
theorem ruleText_quotes_iff (g : Grammar) (id : Nat) (name : String)
    (hid : g.terminals.name? id = some name) (hname : name ≠ "") :
    (Quotes (g.ruleText (.terminal id)) name ↔ ¬ '\n' ∈ name.toList) ∧
      ('\n' ∈ name.toList →
        (∃ stop, Token.lex (g.ruleText (.terminal id)) = ⟨[], some ⟨.unclosedString, ⟨0, stop⟩⟩⟩) ∧
          Automaton.classify (g.ruleText (.terminal id)) = none) ∧
      ∀ symbol other, Automaton.classify symbol = some (.terminal other) ∨
        Automaton.classify symbol = some (.nonterminal other) → ¬ '\n' ∈ other.toList := by
  have htext : g.ruleText (.terminal id) = terminalText name := by
    show terminalText (g.terminalName id) = terminalText name
    rw [terminalName, hid]
    rfl
  have hne := Token.terminalText_ne_empty hname
  rw [htext]
  refine ⟨⟨fun h => Automaton.newline_not_mem_of_classify (Or.inl h.classified), fun hline => ?_⟩,
    fun hline => ?_, fun symbol other => Automaton.newline_not_mem_of_classify⟩
  · have hlex := Token.lex_terminalText_of_oneLine hname hline
    have hunquoted := Token.unquoted_terminalText hname
    exact ⟨hlex, hunquoted, Automaton.classify_of_lex hname hne hlex hunquoted⟩
  · obtain ⟨stop, hlex⟩ := Token.lex_terminalText_of_newline hname hline
    exact ⟨⟨stop, hlex⟩, Automaton.classify_of_fault hne hlex⟩

/-- Terminals with quotes of both kinds, a backslash before a quote, letters of two bytes, and a line
break. -/
def quotedNames : Grammar :=
  (Grammar.empty.addTerminal "it's \"ä\\\"").addTerminal "ü\\\n'"

/-- The first name is written with three backslashes and read back; the second one cannot be. -/
theorem ruleText_quotes_iff_quotedNames :
    quotedNames.ruleText (.terminal 1) = "'it\\'s \"ä\\\\\"'" ∧
      Quotes (quotedNames.ruleText (.terminal 1)) "it's \"ä\\\"" ∧
      ¬ Quotes (quotedNames.ruleText (.terminal 2)) "ü\\\n'" ∧
      Automaton.classify (quotedNames.ruleText (.terminal 2)) = none := by
  obtain ⟨hone, _⟩ := ruleText_quotes_iff quotedNames 1 "it's \"ä\\\"" (by decide +kernel) (by decide)
  obtain ⟨htwo, hbreak, _⟩ := ruleText_quotes_iff quotedNames 2 "ü\\\n'" (by decide +kernel) (by decide)
  have hline : '\n' ∈ "ü\\\n'".toList := by decide
  exact ⟨by decide +kernel, hone.2 (by decide), fun h => htwo.1 h hline, (hbreak hline).2⟩

end Grammar

end RuleGrammar
