import RuleGrammar.Token.Lexer

/-!
# Symbols of transitions

A transition is labelled with a written symbol: a quotation stands for a terminal, a name for a
nonterminal, and the empty text or an empty quotation for a move that reads nothing.

* `Automaton.Symbol`: what a written symbol stands for.
* `Automaton.classify`: the meaning of a written symbol, if it has one.
-/

namespace RuleGrammar.Automaton

inductive Symbol where
  | empty
  | terminal (name : String)
  | nonterminal (name : String)
deriving DecidableEq, Repr

/-- The meaning of a written symbol: it must be empty, or one token from its first to its last
character. -/
def classify (symbol : String) : Option Symbol :=
  if symbol = "" then some .empty
  else
    match Token.lex symbol with
    | ⟨[token], none⟩ =>
        if token.text = symbol then
          match token.kind with
          | .string =>
              let name := Token.unquoted token.text
              some (if name = "" then .empty else .terminal name)
          | .ident => some (.nonterminal token.text)
          | _ => none
        else none
    | _ => none

def invalidSymbolMessage (symbol : String) : String :=
  "invalid transition symbol " ++ Text.quoted symbol

end RuleGrammar.Automaton
