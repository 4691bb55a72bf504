import RuleGrammar.Grammar.Text
import RuleGrammar.Revision

/-!
# Left factoring

Alternatives of a rule that begin with the same elements are merged into those elements followed by
a new nonterminal, whose rule holds the alternatives of what remains.  Elements are the same if their
texts are, and of alternatives with the same text only the first is kept.

* `Alternative`: the elements of an alternative with their texts.
* `groups`: the alternatives by the text of their first element.
* `pass`: one pass over the rule of a nonterminal; it finds the nonterminals it made.
* `factor`: passes over a rule until one makes nothing, and then over the rules that were made, the
  last one first.
* `factorAll`: the same for all rules in the order of their nonterminals.
-/

namespace RuleGrammar.Factoring

/-! ### Alternatives and their groups -/

/-- An alternative by its elements and their texts. -/
structure Alternative where
  texts : List String
  elements : List Rule
deriving Repr

def Alternative.ofRule (g : Grammar) (t : Rule) : Alternative :=
  ⟨t.sequence.map g.ruleText, t.sequence⟩

/-- Alternatives without those whose texts have come before. -/
def distinct (alternatives : List Alternative) : List Alternative :=
  alternatives.foldl (fun kept a =>
    if kept.any fun b => b.texts == a.texts then kept else kept ++ [a]) []

/-- Groups with one more alternative: in the group of its first text, or in a new one at the end. -/
def addToGroups (a : Alternative) : List (List Alternative) → List (List Alternative)
  | [] => [[a]]
  | group :: groups =>
      if group.head?.map (·.texts.head?) = some a.texts.head? then (group ++ [a]) :: groups
      else group :: addToGroups a groups

/-- The alternatives by the text of their first element, in the order of first occurrence. -/
def groups (alternatives : List Alternative) : List (List Alternative) :=
  alternatives.foldl (fun gs a => addToGroups a gs) []

/-- How many texts two lists have in common from the left. -/
def sharedLength : List String → List String → Nat
  | a :: as, b :: bs => if a = b then sharedLength as bs + 1 else 0
  | _, _ => 0

/-- How many texts all alternatives of a group have in common from the left. -/
def groupSharedLength : List Alternative → Nat
  | [] => 0
  | a :: rest => rest.foldl (fun n b => min n (sharedLength a.texts b.texts)) a.texts.length

/-! ### One pass -/

def entry (message : String) : Journal.Entry := ⟨.debug, "ll::factorize", message⟩

/-- What remains of an alternative behind its first elements; the empty word if nothing does. -/
def remainder (shared : Nat) (a : Alternative) : Rule :=
  (Tree.concatenation (a.elements.drop shared)).getD Tree.epsilon

structure Progress where
  grammar : Grammar
  alternatives : List Rule := []
  fresh : List Nat := []
  journal : List Journal.Entry := []

/-- A group of several alternatives of the nonterminal `name` merged into one, with a new nonterminal
for what remains of them. -/
def mergeGroup (name : String) (p : Progress) (group : List Alternative) : Progress :=
  let shared := groupSharedLength group
  let (larger, rest) := p.grammar.addFresh (name ++ "_fac")
  let grammar := match Tree.alternation (group.map (remainder shared)) with
    | some rule => larger.setRule rest rule
    | none => larger
  let merged := match group with
    | a :: _ => (Tree.concatenation (a.elements.take shared)).toList.map
        fun common => common.join (.reference rest false)
    | [] => []
  { grammar := grammar
    alternatives := p.alternatives ++ merged
    fresh := p.fresh ++ [rest]
    journal := p.journal ++
      [entry ("factorizing " ++ Nat.repr group.length ++ " alternatives of " ++ name ++
        " sharing " ++ Nat.repr shared ++ " element(s) into " ++ larger.nonterminalName rest)] }

/-- A group that goes into the revised rule: alone as it is, or merged. -/
def placeGroup (name : String) (p : Progress) (group : List Alternative) : Progress :=
  match group with
  | [a] => { p with alternatives := p.alternatives ++ (Tree.concatenation a.elements).toList }
  | _ => mergeGroup name p group

/-- The grammar with a rule made of alternatives, if there are any. -/
def setAlternatives (g : Grammar) (nt : Nat) (alternatives : List Rule) : Grammar :=
  match Tree.alternation alternatives with
  | some rule => g.setRule nt rule
  | none => g

/-- One pass over the rule of a nonterminal; it finds the nonterminals it made. -/
def pass (g : Grammar) (nt : Nat) : Revised (List Nat) :=
  match g.rule? nt with
  | none => ⟨g, [], []⟩
  | some rule =>
      let all := rule.alternatives
      let kept := distinct (all.map (Alternative.ofRule g))
      let grouped := groups kept
      if grouped.all fun group => group.length == 1 then
        if kept.length < all.length then
          ⟨setAlternatives g nt (kept.filterMap fun a => Tree.concatenation a.elements), [], []⟩
        else ⟨g, [], []⟩
      else
        let p := grouped.foldl (placeGroup (g.nonterminalName nt)) { grammar := g }
        ⟨setAlternatives p.grammar nt p.alternatives, p.fresh, p.journal⟩

/-! ### Whole rules -/

def maxPasses : Nat := 10

/-- Passes over the rule of a nonterminal until one makes nothing, at most `left` of them; they find
the nonterminals that were made. -/
def passes (nt : Nat) : Nat → Grammar → Revised (List Nat)
  | 0, g =>
      ⟨g, [], [entry ("factorization of " ++ g.nonterminalName nt ++ " stopped after " ++
        Nat.repr maxPasses ++ " passes")]⟩
  | left + 1, g =>
      let r := pass g nt
      if r.result.isEmpty then r else r.andThen (passes nt left) (· ++ ·)

/-- Passes over the rule of a nonterminal, and then over the rules that were made, the last one
first, at most `depth` generations deep; they find all nonterminals that were made. -/
def factorWithin : Nat → Grammar → Nat → Revised (List Nat)
  | 0, g, _ => ⟨g, [], []⟩
  | depth + 1, g, nt =>
      let r := passes nt maxPasses g
      r.andThen (fun g => reviseEach (factorWithin depth) g r.result.reverse) (· ++ ·)

def ruleSize (g : Grammar) (nt : Nat) : Nat :=
  match g.rule? nt with
  | some rule => rule.size
  | none => 0

/-- The factoring of the rule of a nonterminal and of the rules that come of it.  The rule of a new
nonterminal is smaller than the rule it came from, so the size of the first rule bounds the number of
generations. -/
def factor (g : Grammar) (nt : Nat) : Revised (List Nat) := factorWithin (ruleSize g nt) g nt

/-- The factoring of all rules that the grammar has, in the order of their nonterminals. -/
def factorAll (g : Grammar) : Revised (List Nat) := reviseEach factor g g.nonterminals.ids

end RuleGrammar.Factoring
