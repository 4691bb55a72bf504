import RuleGrammar.Analysis
import RuleGrammar.Revision

/-!
# Useless rules

A rule is useless if its nonterminal derives no word, or if it cannot be reached from the first rule
that is left once those are gone.  Unlike in derivations, an iteration always counts as deriving
something.

* `Tree.productive`: whether a tree derives a word, given which nonterminals do.
* `productive`: which nonterminals derive a word, by repeated passes.
* `reachable`: which of them are reached from the first one that owns a rule.
* `removeUseless`: the revision; it finds the nonterminals whose rules it took away.
-/

namespace RuleGrammar

/-- Whether a tree counts as deriving a word, given which nonterminals do. -/
def Tree.productive (productive : Flags) : Rule → Bool
  | .reference nt _ => productive.getD nt false
  | .alt l r => l.productive productive || r.productive productive
  | .seq l r => l.productive productive && r.productive productive
  | _ => true

namespace Useless

/-! ### Productive nonterminals -/

def productivePass (rules : List (Nat × Rule)) (flags : Flags) : Flags × Bool :=
  rules.foldl (fun (flags, changed) (nt, rule) =>
    if !flags.getD nt false && rule.productive flags then (flags.setIfInBounds nt true, true)
    else (flags, changed)) (flags, false)

/-- Which nonterminals count as deriving a word. -/
def productive (g : Grammar) : FixedPoint.Outcome Flags :=
  FixedPoint.run (productivePass g.ownedRules) FixedPoint.maxPasses
    (Array.replicate g.nonterminals.size false)

def productiveJournal (o : FixedPoint.Outcome Flags) : List Journal.Entry := [o.entry "productive"]

/-! ### Reachable nonterminals -/

/-- Marks a nonterminal as reached and puts it on the stack, if it is productive and new. -/
def visit (productive : Flags) (state : List Nat × Flags) (nt : Nat) : List Nat × Flags :=
  let (stack, reached) := state
  if productive.getD nt false && !reached.getD nt true then
    (nt :: stack, reached.setIfInBounds nt true)
  else (stack, reached)

/-- Visits what the nonterminals on a stack refer to, and so on, for at most `visits` of them. -/
def explore (g : Grammar) (productive : Flags) : Nat → List Nat → Flags → Flags
  | 0, _, reached => reached
  | _ + 1, [], reached => reached
  | visits + 1, nt :: stack, reached =>
      match g.rule? nt with
      | some rule =>
          let (stack, reached) := rule.nonterminals.foldl (visit productive) (stack, reached)
          explore g productive visits stack reached
      | none => explore g productive visits stack reached

/-- The first nonterminal that owns a rule and is productive. -/
def root? (g : Grammar) (productive : Flags) : Option Nat :=
  (g.ownedRules.map Prod.fst).find? fun nt => productive.getD nt false

/-- Which productive nonterminals are reached from the root through productive ones.  Each of them
is put on the stack once. -/
def reachable (g : Grammar) (productive : Flags) : Flags :=
  let count := g.nonterminals.size
  match root? g productive with
  | some root =>
      explore g productive count [root] ((Array.replicate count false).setIfInBounds root true)
  | none => Array.replicate count false

/-! ### Taking rules away -/

def entry (message : String) : Journal.Entry := ⟨.debug, "ll::useless", message⟩

/-- The nonterminals that own a rule and are not marked. -/
def unmarked (g : Grammar) (marks : Flags) : List Nat :=
  (g.ownedRules.map Prod.fst).filter fun nt => !marks.getD nt false

/-- The grammar without the rules of the nonterminals that are not marked. -/
def clearUnmarked (g : Grammar) (marks : Flags) : Revised (List Nat) :=
  let doomed := unmarked g marks
  ⟨doomed.foldl Grammar.takeRule g, doomed,
    doomed.map fun nt => entry ("clearing rule of " ++ g.nonterminalName nt)⟩

/-- The grammar without its useless rules: first those of unproductive, then those of unreachable
nonterminals. -/
def removeUseless (g : Grammar) : Revised (List Nat) :=
  let flags := productive g
  let r := (clearUnmarked g flags.value).andThen
    (fun g => clearUnmarked g (reachable g flags.value)) (· ++ ·)
  { r with journal := productiveJournal flags ++ r.journal ++
      [entry ("removed " ++ Nat.repr r.result.length ++ " useless rules")] }

end Useless

end RuleGrammar
