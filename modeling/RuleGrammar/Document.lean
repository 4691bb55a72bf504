import RuleGrammar.Token
import RuleGrammar.Tree

/-!
# Rule documents

A document is a list of records, each giving a name its rule.

* `Record`: a name, the place where it stands and the rule as it is written.
* `Document`: the records in the order of the text.
* `Tree.optional`: what square brackets around an expression mean.
-/

namespace RuleGrammar

/-- A record of a document. -/
structure Record where
  name : String
  span : Span
  body : Expr
deriving DecidableEq, Repr, Inhabited

/-- The records of a document in the order of the text. -/
abbrev Document := List Record

/-- The tree of the empty word as it is written: the terminal without a name. -/
def Tree.empty : Expr := .terminal ""

/-- An expression that may be left out. -/
def Tree.optional (e : Expr) : Expr := .alt Tree.empty e

end RuleGrammar
