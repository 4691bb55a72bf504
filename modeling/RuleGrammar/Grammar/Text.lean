import RuleGrammar.Grammar
import RuleGrammar.Tree.Render

/-!
# Grammars as documents

A grammar is written as a document: one record `name : rule .` a line for each nonterminal that owns
a rule, and a closing mark.

* `Grammar.ruleText`: the text of a rule.
* `Grammar.toText`: the document.
-/

namespace RuleGrammar

def endMark : String := "EOGram!"

namespace Grammar

def ruleText (g : Grammar) (rule : Rule) : String := (g.named rule).text

/-- The record of a nonterminal, with its line break. -/
def record (g : Grammar) (nt : Nat) (rule : Rule) : String :=
  g.nonterminalName nt ++ " : " ++ g.ruleText rule ++ " .\n"

/-- The document of a grammar. -/
def toText (g : Grammar) : String :=
  String.join (g.ownedRules.map fun (nt, rule) => g.record nt rule) ++ endMark ++ "\n"

end Grammar

end RuleGrammar
