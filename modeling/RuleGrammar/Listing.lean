import RuleGrammar.Grammar
import RuleGrammar.NumberSet
import RuleGrammar.Text.Quoted

/-!
# Structural listings

The listing of a value shows how it is built, with every number in sight; it is meant for looking
into a grammar, not for reading one back.

* `SymbolTable.listing`, `Tree.listing`, `Grammar.listing`, `NumberSet.listing`.
-/

namespace RuleGrammar

/-- Texts between braces, parted by commas. -/
def listedInBraces (items : List String) : String :=
  "\x7b" ++ ", ".intercalate items ++ "\x7d"

/-- Texts between square brackets, parted by commas. -/
def listedInBrackets (items : List String) : String :=
  "[" ++ ", ".intercalate items ++ "]"

def listedRecord (name : String) (fields : List (String × String)) : String :=
  name ++ " \x7b " ++ ", ".intercalate (fields.map fun (key, value) => key ++ ": " ++ value)
    ++ " \x7d"

def NumberSet.listing (s : NumberSet) : String :=
  listedInBraces (s.toList.map Nat.repr)

def SymbolTable.listing (t : SymbolTable) : String :=
  listedInBraces (t.names.toList.zipIdx.map fun (name, id) =>
    Nat.repr id ++ ": " ++ Text.quoted name)

def Tree.listing : Rule → String
  | .terminal id => "Terminal(TerminalId(" ++ Nat.repr id ++ "))"
  | .semantic id => "Semantic(SemanticId(" ++ Nat.repr id ++ "))"
  | .reference id opened =>
      listedRecord "NonTerminal"
        [("id", "NonterminalId(" ++ Nat.repr id ++ ")"),
         ("open", if opened then "true" else "false")]
  | .seq l r => "Sequence(" ++ l.listing ++ ", " ++ r.listing ++ ")"
  | .alt l r => "Alternative(" ++ l.listing ++ ", " ++ r.listing ++ ")"
  | .iter l r => "Iteration(" ++ l.listing ++ ", " ++ r.listing ++ ")"

def Grammar.listing (g : Grammar) : String :=
  listedRecord "Grammar"
    [("terminals", g.terminals.listing),
     ("nonterminals", g.nonterminals.listing),
     ("semantics", g.semantics.listing),
     ("macros", g.macros.listing),
     ("rules", listedInBrackets (g.rules.toList.map fun
        | some rule => "Some(" ++ rule.listing ++ ")"
        | none => "None"))]

end RuleGrammar
