import RuleGrammar.Grammar.Build
import RuleGrammar.Prediction
import RuleGrammar.Transform

/-!
# Reports on a grammar

* `Report.firstFollow`: the three analyses of each nonterminal that owns a rule.
* `Report.conflicts`: whether a grammar is LL(1), and if not, why.
* `Report.run`: a text is read, transformed and reported on.
-/

namespace RuleGrammar.Report

def lookaheads (g : Grammar) (s : LookaheadSet) : String := listedInBraces (LookaheadSet.names g s)

def firstFollowOf (g : Grammar) (a : Analysis) (nt : Nat) : String :=
  g.nonterminalName nt ++ (if a.nullable nt then " (nullable)" else "") ++ "\n" ++
    "  FIRST:  " ++ lookaheads g (a.first nt) ++ "\n" ++
    "  FOLLOW: " ++ lookaheads g (a.follow nt) ++ "\n"

def firstFollow (g : Grammar) (a : Analysis) : String :=
  String.join (g.ownedRules.map fun (nt, _) => firstFollowOf g a nt)

/-- Whether a grammar is LL(1), and if not, its conflicts. -/
def conflicts (g : Grammar) (p : Prediction) : String :=
  if p.isLL1 then "grammar is LL(1)\n"
  else
    "grammar is not LL(1), " ++ Nat.repr p.conflicts.length ++ " conflict(s):\n\n" ++
      "\n".intercalate (p.conflicts.map fun c => "  " ++ p.conflictText g c) ++ "\n"

structure Config where
  transforms : List Transform := []
  table : Bool := false
  firstFollow : Bool := false

structure Output where
  grammar : Grammar
  table : Prediction
  report : String
  journal : List Journal.Entry

/-- The report on a grammar whose table and analyses are known. -/
def text (config : Config) (g : Grammar) (a : Analysis) (p : Prediction) : String :=
  (if config.firstFollow then firstFollow g a else "") ++
    (if config.table then p.display g else "") ++ conflicts g p

def ofGrammar (config : Config) (g : Grammar) : Output :=
  let r := Transform.applyAll g config.transforms
  let a := Analysis.compute r.grammar
  let p := Prediction.ofAnalysis r.grammar a
  ⟨r.grammar, p, text config r.grammar a p, r.journal ++ a.journal ++ p.journal⟩

/-- Reads a text, applies the transforms and reports on the result. -/
def run (input : String) (config : Config) : Except Fault Output :=
  (Grammar.build input).map (ofGrammar config)

end RuleGrammar.Report
