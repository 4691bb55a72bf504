import RuleGrammar.Revision

/-!
# Direct left recursion

A rule that begins some of its alternatives with its own nonterminal `R`,

    R : R , a ; … ; b ; …

is revised with a new nonterminal for the tail,

    R     : b , R_rec ; …
    R_rec : a , R_rec ; … ; @

An alternative that is `R` alone derives nothing new and is dropped.  A rule all of whose alternatives
begin with `R` stays as it is, and so does recursion that goes through another nonterminal.

* `leadsWith`: whether an alternative begins with a nonterminal.
* `isRecursive`: whether a rule is directly left recursive.
* `eliminate`: the revision of one rule; it finds the new nonterminal, if it made one.
* `eliminateAll`: the revision of all rules in the order of their nonterminals.
-/

namespace RuleGrammar.LeftRecursion

/-- Whether an alternative begins with a reference to a nonterminal. -/
def leadsWith (nt : Nat) (alternative : Rule) : Bool :=
  match alternative.sequence.head? with
  | some (.reference id _) => id == nt
  | _ => false

/-- Whether some alternative of the rule of a nonterminal begins with that nonterminal. -/
def isRecursive (g : Grammar) (nt : Nat) : Bool :=
  match g.rule? nt with
  | some rule => rule.alternatives.any (leadsWith nt)
  | none => false

/-- What follows the nonterminal in the alternatives that begin with it, where anything does. -/
def tails (nt : Nat) (rule : Rule) : List Rule :=
  (rule.alternatives.filter (leadsWith nt)).filterMap fun alternative =>
    Tree.concatenation alternative.sequence.tail

def bases (nt : Nat) (rule : Rule) : List Rule :=
  rule.alternatives.filter fun alternative => !leadsWith nt alternative

/-- The rule of the nonterminal after the revision: the bases, each followed by the tail. -/
def headRule (bases : List Rule) (tail : Nat) : Option Rule :=
  Tree.alternation (bases.map fun base => base.join (.reference tail false))

/-- The rule of the tail: what follows the nonterminal, each followed by the tail again, or
nothing. -/
def tailRule (tails : List Rule) (tail : Nat) : Option Rule :=
  Tree.alternation
    ((tails.map fun t => .seq t (.reference tail false)) ++ [Tree.epsilon])

def entry (message : String) : Journal.Entry := ⟨.debug, "ll::left_recursion", message⟩

/-- The revision of a left-recursive rule with at least one base. -/
def revise (g : Grammar) (nt : Nat) (tails bases : List Rule) : Revised (Option Nat) :=
  let name := g.nonterminalName nt
  if tails.isEmpty then
    match Tree.alternation bases with
    | some rule =>
        ⟨g.setRule nt rule, none, [entry ("dropping trivial self-derivation of " ++ name)]⟩
    | none => ⟨g, none, []⟩
  else
    let (larger, tail) := g.addFresh (name ++ "_rec")
    match headRule bases tail, tailRule tails tail with
    | some head, some rest =>
        ⟨(larger.setRule nt head).setRule tail rest, some tail,
          [entry ("eliminating left recursion of " ++ name ++ ": " ++ Nat.repr tails.length ++
            " recursive, " ++ Nat.repr bases.length ++ " other alternatives, tail " ++
            larger.nonterminalName tail)]⟩
    | _, _ => ⟨g, none, []⟩

/-- The revision of the rule of a nonterminal; it finds the new nonterminal, if it made one. -/
def eliminate (g : Grammar) (nt : Nat) : Revised (Option Nat) :=
  match g.rule? nt with
  | some rule =>
      if rule.alternatives.any (leadsWith nt) && !(bases nt rule).isEmpty then
        revise g nt (tails nt rule) (bases nt rule)
      else ⟨g, none, []⟩
  | none => ⟨g, none, []⟩

/-- The revision of one rule, which finds the pair of the nonterminal and its tail. -/
def eliminatePair (g : Grammar) (nt : Nat) : Revised (List (Nat × Nat)) :=
  let r := eliminate g nt
  { r with result := r.result.toList.map fun tail => (nt, tail) }

/-- The revision of all rules that the grammar has, in the order of their nonterminals; it finds the
pairs of a nonterminal and its tail. -/
def eliminateAll (g : Grammar) : Revised (List (Nat × Nat)) :=
  reviseEach eliminatePair g g.nonterminals.ids

end RuleGrammar.LeftRecursion
