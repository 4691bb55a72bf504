import RuleGrammar.SymbolTable
import RuleGrammar.Tree

/-!
# Grammars

A grammar is four symbol tables and one optional rule for each nonterminal.  Terminal zero is the
empty name, which stands for the empty word; the start symbol is the first nonterminal.

* `Grammar`: the tables and the rules, which may also be stored under numbers past the table.
* `addTerminal`, `addNonterminal`, `addSemantic`, `addMacro`: a name enters a table.
* `rule?`, `setRule`, `takeRule`, `ownedRules`: the rules.
* `named`: a rule with its symbols replaced by their names.
-/

namespace RuleGrammar

structure Grammar where
  -- terminal names; number zero is the empty name
  terminals : SymbolTable
  -- nonterminal names; number zero is the start symbol
  nonterminals : SymbolTable
  semantics : SymbolTable
  -- names that some document opened
  macros : SymbolTable
  rules : Array (Option Rule)
  emptyName : terminals.name? 0 = some ""
deriving DecidableEq

namespace Grammar

/-- The grammar without rules, whose only symbol is the empty terminal. -/
def empty : Grammar where
  terminals := SymbolTable.empty.insert ""
  nonterminals := SymbolTable.empty
  semantics := SymbolTable.empty
  macros := SymbolTable.empty
  rules := #[]
  emptyName := by simp [SymbolTable.name?, SymbolTable.insert, SymbolTable.empty]

instance : Inhabited Grammar := ⟨empty⟩

/-! ### Entering names -/

def addTerminal (g : Grammar) (name : String) : Grammar :=
  { g with
    terminals := g.terminals.insert name
    emptyName := SymbolTable.name?_insert_of_some g.emptyName name }

/-- Rules with a place for each number below `count`. -/
def roomFor (rules : Array (Option Rule)) (count : Nat) : Array (Option Rule) :=
  rules ++ Array.replicate (count - rules.size) none

/-- The grammar with a nonterminal name in its table and a place for its rule. -/
def addNonterminal (g : Grammar) (name : String) : Grammar :=
  let table := g.nonterminals.insert name
  { g with nonterminals := table, rules := roomFor g.rules table.size }

def addSemantic (g : Grammar) (name : String) : Grammar :=
  { g with semantics := g.semantics.insert name }

/-- The grammar with an opened name in its table. -/
def addMacro (g : Grammar) (name : String) : Grammar :=
  { g with macros := g.macros.insert name }

/-- The grammar with a new nonterminal whose name is made from `base`, and its number. -/
def addFresh (g : Grammar) (base : String) : Grammar × Nat :=
  let name := g.nonterminals.freshName base
  (g.addNonterminal name, g.nonterminals.slot name)

/-! ### Rules -/

def start? (g : Grammar) : Option Nat := g.nonterminals.ids.head?

def rule? (g : Grammar) (nt : Nat) : Option Rule := (g.rules[nt]?).join

def hasRule (g : Grammar) (nt : Nat) : Bool := (g.rule? nt).isSome

/-- The grammar with a rule stored under a number in place of the one that was there. -/
def setRule (g : Grammar) (nt : Nat) (rule : Rule) : Grammar :=
  { g with rules := (roomFor g.rules (nt + 1)).setIfInBounds nt (some rule) }

def takeRule (g : Grammar) (nt : Nat) : Grammar :=
  { g with rules := g.rules.setIfInBounds nt none }

/-- The nonterminals of the table that own a rule, in ascending order, with their rules. -/
def ownedRules (g : Grammar) : List (Nat × Rule) :=
  g.nonterminals.ids.filterMap fun nt => (g.rule? nt).map fun rule => (nt, rule)

/-! ### Names of symbols -/

/-- The name of a terminal, or `?` for a number that is not in the table. -/
def terminalName (g : Grammar) (id : Nat) : String := (g.terminals.name? id).getD "?"

/-- The name of a nonterminal, or `?` for a number that is not in the table. -/
def nonterminalName (g : Grammar) (id : Nat) : String := (g.nonterminals.name? id).getD "?"

/-- The name of a semantic action, or `?` for a number that is not in the table. -/
def semanticName (g : Grammar) (id : Nat) : String := (g.semantics.name? id).getD "?"

/-- A rule with the names of its symbols in their places. -/
def named (g : Grammar) (rule : Rule) : Expr :=
  rule.rename g.terminalName g.semanticName g.nonterminalName

end Grammar

end RuleGrammar
