import RuleGrammar.Document.Reader
import RuleGrammar.Grammar

/-!
# Grammars from documents

The records of a document enter a grammar one after the other: the name first, then the symbols of
its rule from left to right, each numbered when it comes up for the first time.

* `Grammar.intern`: an expression over names becomes a rule over numbers.
* `Grammar.addRecord`: a record enters a grammar that does not yet have its rule.
* `Grammar.build`: the grammar of a text.
-/

namespace RuleGrammar.Grammar

/-- The grammar in whose tables the names of an expression stand, and the expression over numbers. -/
def intern (g : Grammar) : Expr → Grammar × Rule
  | .terminal name => (g.addTerminal name, .terminal (g.terminals.slot name))
  | .semantic name => (g.addSemantic name, .semantic (g.semantics.slot name))
  | .reference name opened =>
      ((if opened then g.addMacro name else g).addNonterminal name,
        .reference (g.nonterminals.slot name) opened)
  | .seq l r =>
      let (g, l) := g.intern l
      let (g, r) := g.intern r
      (g, .seq l r)
  | .alt l r =>
      let (g, l) := g.intern l
      let (g, r) := g.intern r
      (g, .alt l r)
  | .iter l r =>
      let (g, l) := g.intern l
      let (g, r) := g.intern r
      (g, .iter l r)

def addRecord (g : Grammar) (record : Record) : Except Fault Grammar :=
  let nt := g.nonterminals.slot record.name
  if g.hasRule nt then .error ⟨.duplicateRule record.name, record.span⟩
  else
    let (g, rule) := (g.addNonterminal record.name).intern record.body
    .ok (g.setRule nt rule)

def ofDocument (document : Document) : Except Fault Grammar :=
  document.foldlM addRecord empty

/-- The grammar of a text, or the first fault of the text. -/
def build (text : String) : Except Fault Grammar := do
  ofDocument (← Document.read text)

end RuleGrammar.Grammar
