import RuleGrammar.FixedPoint
import RuleGrammar.Grammar.Expand
import RuleGrammar.Lookahead

/-!
# NULLABLE, FIRST and FOLLOW

Three analyses of the expanded rules of a grammar, each by repeated passes over all rules in the
order of their nonterminals.  A semantic action derives the empty word; an iteration `l # r` counts
as nullable and takes its first lookaheads from `l` alone.

* `Tree.nullable`, `Tree.first`: the two analyses on a tree, given the values of nonterminals.
* `Analysis.spread`: the third, which hands what can follow a tree down to its references.
* `nullablePass`, `firstPass`, `followPass`: one pass over all rules.
* `Analysis.compute`: the three analyses of a grammar.
-/

namespace RuleGrammar

/-- The truth values of nonterminals by number; a number without a value counts as false. -/
abbrev Flags := Array Bool

/-- The lookahead sets of nonterminals by number; a number without a set counts as empty. -/
abbrev LookaheadSets := Array LookaheadSet

/-! ### Trees -/

/-- Whether a tree counts as deriving the empty word. -/
def Tree.nullable (nullable : Flags) : Rule → Bool
  | .terminal t => t == 0
  | .semantic _ => true
  | .reference nt _ => nullable.getD nt false
  | .seq l r => l.nullable nullable && r.nullable nullable
  | .alt l r => l.nullable nullable || r.nullable nullable
  | .iter _ _ => true

/-- The lookaheads that a tree counts as beginning with. -/
def Tree.first (nullable : Flags) (first : LookaheadSets) : Rule → LookaheadSet
  | .terminal t => if t = 0 then .empty else .singleton (Lookahead.terminal t).slot
  | .semantic _ => .empty
  | .reference nt _ => first.getD nt .empty
  | .seq l r =>
      if l.nullable nullable then (l.first nullable first).union (r.first nullable first)
      else l.first nullable first
  | .alt l r => (l.first nullable first).union (r.first nullable first)
  | .iter l _ => l.first nullable first

namespace Analysis

/-- The sets with more lookaheads at a number, and whether any of them is new there. -/
def enlarge (sets : LookaheadSets) (nt : Nat) (more : LookaheadSet) : LookaheadSets × Bool :=
  match sets[nt]? with
  | some known =>
      let larger := known.union more
      if larger.size = known.size then (sets, false) else (sets.setIfInBounds nt larger, true)
  | none => (sets, false)

/-- What can follow the left part of a sequence in a context. -/
def beforeRight (nullable : Flags) (first : LookaheadSets) (r : Rule) (context : LookaheadSet) :
    LookaheadSet :=
  if r.nullable nullable then (r.first nullable first).union context else r.first nullable first

/-- What can follow the left part of an iteration in a context: the context, or another round. -/
def insideLeft (nullable : Flags) (first : LookaheadSets) (l r : Rule) (context : LookaheadSet) :
    LookaheadSet :=
  let leave := context.union (r.first nullable first)
  if r.nullable nullable then leave.union (l.first nullable first) else leave

/-- What can follow the right part of an iteration in a context: the left part again, and if that
derives the empty word, what can follow it. -/
def insideRight (nullable : Flags) (first : LookaheadSets) (l r : Rule) (context : LookaheadSet) :
    LookaheadSet :=
  if l.nullable nullable then
    ((l.first nullable first).union context).union (r.first nullable first)
  else l.first nullable first

/-- The sets of followers after a tree in a context has handed down what can follow its references,
and whether any of it is new. -/
def spread (nullable : Flags) (first : LookaheadSets) :
    Rule → LookaheadSet → LookaheadSets → LookaheadSets × Bool
  | .reference nt _, context, sets => enlarge sets nt context
  | .alt l r, context, sets =>
      let (sets, newLeft) := spread nullable first l context sets
      let (sets, newRight) := spread nullable first r context sets
      (sets, newLeft || newRight)
  | .seq l r, context, sets =>
      let (sets, newLeft) := spread nullable first l (beforeRight nullable first r context) sets
      let (sets, newRight) := spread nullable first r context sets
      (sets, newLeft || newRight)
  | .iter l r, context, sets =>
      let (sets, newLeft) := spread nullable first l (insideLeft nullable first l r context) sets
      let (sets, newRight) := spread nullable first r (insideRight nullable first l r context) sets
      (sets, newLeft || newRight)
  | _, _, sets => (sets, false)

/-! ### Passes -/

def nullablePass (rules : List (Nat × Rule)) (flags : Flags) : Flags × Bool :=
  rules.foldl (fun (flags, changed) (nt, rule) =>
    if !flags.getD nt false && rule.nullable flags then (flags.setIfInBounds nt true, true)
    else (flags, changed)) (flags, false)

def firstPass (nullable : Flags) (rules : List (Nat × Rule)) (sets : LookaheadSets) :
    LookaheadSets × Bool :=
  rules.foldl (fun (sets, changed) (nt, rule) =>
    let more := rule.first nullable sets
    let (sets, new) := enlarge sets nt more
    (sets, changed || new)) (sets, false)

def followPass (nullable : Flags) (first : LookaheadSets) (rules : List (Nat × Rule))
    (sets : LookaheadSets) : LookaheadSets × Bool :=
  rules.foldl (fun (sets, changed) (nt, rule) =>
    let context := sets.getD nt .empty
    let (sets, new) := spread nullable first rule context sets
    (sets, changed || new)) (sets, false)

end Analysis

/-! ### Grammars -/

/-- The three analyses of a grammar, with the passes that each of them took. -/
structure Analysis where
  nullableRun : FixedPoint.Outcome Flags
  firstRun : FixedPoint.Outcome LookaheadSets
  followRun : FixedPoint.Outcome LookaheadSets

namespace Analysis

/-- The nonterminals of a grammar that own a rule, with their expanded rules. -/
def expandedRules (g : Grammar) : List (Nat × Rule) :=
  g.nonterminals.ids.filterMap fun nt => (g.expandedRule? nt).map fun rule => (nt, rule)

/-- What is known of followers before the first pass: the end follows the start symbol. -/
def initialFollow (count : Nat) : LookaheadSets :=
  (Array.replicate count NumberSet.empty).setIfInBounds 0 (.singleton Lookahead.finish.slot)

def compute (g : Grammar) : Analysis :=
  let rules := expandedRules g
  let count := g.nonterminals.size
  let nullable := FixedPoint.run (nullablePass rules) FixedPoint.maxPasses
    (Array.replicate count false)
  let first := FixedPoint.run (firstPass nullable.value rules) FixedPoint.maxPasses
    (Array.replicate count NumberSet.empty)
  let follow := FixedPoint.run (followPass nullable.value first.value rules) FixedPoint.maxPasses
    (initialFollow count)
  ⟨nullable, first, follow⟩

def nullable (a : Analysis) (nt : Nat) : Bool := a.nullableRun.value.getD nt false

def first (a : Analysis) (nt : Nat) : LookaheadSet := a.firstRun.value.getD nt .empty

def follow (a : Analysis) (nt : Nat) : LookaheadSet := a.followRun.value.getD nt .empty

/-- Whether a tree counts as deriving the empty word. -/
def isNullable (a : Analysis) (t : Rule) : Bool := t.nullable a.nullableRun.value

/-- The lookaheads that the words of a tree begin with. -/
def firstOf (a : Analysis) (t : Rule) : LookaheadSet :=
  t.first a.nullableRun.value a.firstRun.value

def journal (a : Analysis) : List Journal.Entry :=
  [a.nullableRun.entry "NULLABLE", a.firstRun.entry "FIRST", a.followRun.entry "FOLLOW"]

end Analysis

end RuleGrammar
