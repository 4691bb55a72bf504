import RuleGrammar.Derivation
import RuleGrammar.Grammar.Expand

/-!
# Parse trees

A parse tree records how a word is derived: the side taken at each alternative, the rounds of each
iteration, and the rule used for each reference.  It is taken over a family of rules, so that it can
be read over the rules of a grammar and over its expanded rules.

* `ParseTree rules t`: the parse trees of a tree `t`.
* `ParseTree.yield`: the word that is read.
* `ParseTree.choice`: the number of the topmost alternative that was taken.
* `ParseTree.expansions`: each reference with the number of the alternative its rule took and the
  position at which it begins.
-/

namespace RuleGrammar

/-- How a word of a tree is derived over a family of rules. -/
inductive ParseTree (rules : Nat → Option Rule) : Rule → Type where
  | empty : ParseTree rules (.terminal 0)
  | terminal (t : Nat) (h : t ≠ 0) : ParseTree rules (.terminal t)
  | semantic (s : Nat) : ParseTree rules (.semantic s)
  | reference (nt : Nat) (opened : Bool) {rule : Rule} (h : rules nt = some rule)
      (body : ParseTree rules rule) : ParseTree rules (.reference nt opened)
  | seq {l r : Rule} (left : ParseTree rules l) (right : ParseTree rules r) :
      ParseTree rules (.seq l r)
  | altLeft {l : Rule} (r : Rule) (left : ParseTree rules l) : ParseTree rules (.alt l r)
  | altRight (l : Rule) {r : Rule} (right : ParseTree rules r) : ParseTree rules (.alt l r)
  | iterOnce {l : Rule} (r : Rule) (first : ParseTree rules l) : ParseTree rules (.iter l r)
  | iterMore {l r : Rule} (before : ParseTree rules (.iter l r)) (between : ParseTree rules r)
      (last : ParseTree rules l) : ParseTree rules (.iter l r)

namespace ParseTree

variable {rules : Nat → Option Rule}

def yield {t : Rule} : ParseTree rules t → Word
  | .empty => []
  | .terminal t _ => [t]
  | .semantic _ => []
  | .reference _ _ _ body => body.yield
  | .seq left right => left.yield ++ right.yield
  | .altLeft _ left => left.yield
  | .altRight _ right => right.yield
  | .iterOnce _ first => first.yield
  | .iterMore before between last => before.yield ++ between.yield ++ last.yield

/-- The number of the alternative that was taken among the topmost ones. -/
def choice {t : Rule} : ParseTree rules t → Nat
  | .altLeft _ left => left.choice
  | .altRight l right => l.alternatives.length + right.choice
  | _ => 0

/-- The references of a parse tree that begins at a position: the nonterminal, the number of the
alternative that its rule took, and the position at which it begins. -/
def expansions {t : Rule} (start : Nat) : ParseTree rules t → List (Nat × Nat × Nat)
  | .reference nt _ _ body => (nt, body.choice, start) :: body.expansions start
  | .seq left right =>
      left.expansions start ++ right.expansions (start + left.yield.length)
  | .altLeft _ left => left.expansions start
  | .altRight _ right => right.expansions start
  | .iterOnce _ first => first.expansions start
  | .iterMore before between last =>
      before.expansions start ++ between.expansions (start + before.yield.length) ++
        last.expansions (start + before.yield.length + between.yield.length)
  | _ => []

end ParseTree

/-- The expanded rules of the nonterminals of a grammar's table. -/
def Grammar.tableExpandedRule? (g : Grammar) (nt : Nat) : Option Rule :=
  if nt < g.nonterminals.size then g.expandedRule? nt else none

end RuleGrammar
