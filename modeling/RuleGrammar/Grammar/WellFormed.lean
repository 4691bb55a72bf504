import RuleGrammar.Grammar

/-!
# Well-formed grammars

* `Grammar.Covers g t`: every symbol of the tree `t` is in its table.
* `Grammar.WellFormed g`: rules belong to nonterminals of the table and use symbols of the tables.
* `Grammar.Settled g`: moreover there is one place for a rule to each nonterminal, and every opened
  name is known as one.
-/

namespace RuleGrammar.Grammar

/-- Every symbol of a tree is in its table. -/
def Covers (g : Grammar) : Rule → Prop
  | .terminal t => t < g.terminals.size
  | .semantic s => s < g.semantics.size
  | .reference nt _ => nt < g.nonterminals.size
  | .seq l r | .alt l r | .iter l r => g.Covers l ∧ g.Covers r

/-- Rules belong to nonterminals of the table and use symbols of the tables. -/
structure WellFormed (g : Grammar) : Prop where
  owned : ∀ {nt : Nat} {rule : Rule}, g.rule? nt = some rule → nt < g.nonterminals.size
  covered : ∀ {nt : Nat} {rule : Rule}, g.rule? nt = some rule → g.Covers rule

/-- The opened names of a tree are known as such. -/
def KnowsOpened (g : Grammar) (t : Rule) : Prop :=
  ∀ nt, (nt, true) ∈ t.mentions → g.nonterminalName nt ∈ g.macros.names

/-- A well-formed grammar with one place for a rule to each nonterminal, in which every opened name
is known as one. -/
structure Settled (g : Grammar) : Prop extends g.WellFormed where
  places : g.rules.size = g.nonterminals.size
  opened : ∀ {nt : Nat} {rule : Rule}, g.rule? nt = some rule → g.KnowsOpened rule

end RuleGrammar.Grammar
