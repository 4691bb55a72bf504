import RuleGrammar.Analysis
import RuleGrammar.Text.Columns

/-!
# Prediction tables

A prediction table says which alternative of a nonterminal's expanded rule to take when the next
symbol of the text is known.  Alternatives are numbered from zero in the order of the rule.  Where
two alternatives claim the same lookahead, the later one stays in the table and the pair is kept as a
conflict; a grammar without conflicts is LL(1).

* `Prediction.Row`: the alternatives of a nonterminal and its cells.
* `Prediction.predictionSet`: the lookaheads that an alternative claims.
* `Prediction.build`: the table of a grammar.
* `Prediction.get?`, `Prediction.production?`: the predicted alternative.
* `Prediction.display`: the printed table.
-/

namespace RuleGrammar

/-- Two alternatives of a nonterminal that claim the same lookahead. -/
structure Conflict where
  nonterminal : Nat
  lookahead : Lookahead
  -- the alternative that was in the table
  earlier : Nat
  later : Nat
deriving DecidableEq, Repr

namespace Prediction

/-- The cells of a row: alternatives by the number of their lookahead. -/
abbrev Cells := List (Nat × Nat)

/-- The cells with an alternative entered for a lookahead, in place of the one that was there. -/
def Cells.enter (slot alternative : Nat) : Cells → Cells
  | [] => [(slot, alternative)]
  | (key, value) :: cells =>
      if key = slot then (key, alternative) :: cells
      else (key, value) :: Cells.enter slot alternative cells

/-- The alternatives of a nonterminal and what is predicted for each lookahead. -/
structure Row where
  alternatives : List Rule := []
  cells : Cells := []
deriving Inhabited

/-- The lookaheads that an alternative of a nonterminal claims: those it begins with, and if it
counts as deriving the empty word, those that can follow the nonterminal. -/
def predictionSet (a : Analysis) (nt : Nat) (alternative : Rule) : LookaheadSet :=
  if a.isNullable alternative then (a.firstOf alternative).union (a.follow nt)
  else a.firstOf alternative

/-- Enters one claim of an alternative, and keeps a conflict if another one had made it. -/
def claim (nt alternative : Nat) (state : Cells × List Conflict) (slot : Nat) :
    Cells × List Conflict :=
  let (cells, conflicts) := state
  match cells.lookup slot with
  | some earlier =>
      (cells.enter slot alternative,
        if earlier = alternative then conflicts
        else conflicts ++ [⟨nt, .ofSlot slot, earlier, alternative⟩])
  | none => (cells.enter slot alternative, conflicts)

/-- Enters all claims of the alternatives of a nonterminal. -/
def claimAll (a : Analysis) (nt : Nat) (alternatives : List Rule) : Cells × List Conflict :=
  alternatives.zipIdx.foldl (fun state (alternative, i) =>
    (predictionSet a nt alternative).toList.foldl (claim nt i) state) ([], [])

end Prediction

/-- A prediction table. -/
structure Prediction where
  rows : Array Prediction.Row
  conflicts : List Conflict

namespace Prediction

/-- The alternatives of the expanded rule of a nonterminal; none if it has no rule. -/
def alternativesOf (g : Grammar) (nt : Nat) : List Rule :=
  match g.expandedRule? nt with
  | some rule => rule.alternatives
  | none => []

def rowOf (g : Grammar) (a : Analysis) (nt : Nat) : Row × List Conflict :=
  let alternatives := alternativesOf g nt
  let (cells, conflicts) := claimAll a nt alternatives
  (⟨alternatives, cells⟩, conflicts)

def ofAnalysis (g : Grammar) (a : Analysis) : Prediction :=
  let rows := g.nonterminals.ids.map (rowOf g a)
  ⟨(rows.map Prod.fst).toArray, rows.flatMap Prod.snd⟩

def build (g : Grammar) : Prediction := ofAnalysis g (Analysis.compute g)

/-! ### Asking a table -/

/-- The alternative that is predicted for a nonterminal and a lookahead. -/
def get? (p : Prediction) (nt : Nat) (lookahead : Lookahead) : Option Nat :=
  (p.rows.getD nt {}).cells.lookup lookahead.slot

def alternatives (p : Prediction) (nt : Nat) : List Rule := (p.rows.getD nt {}).alternatives

def hasRule (p : Prediction) (nt : Nat) : Bool := !(p.alternatives nt).isEmpty

/-- The tree that is predicted for a nonterminal and a lookahead. -/
def production? (p : Prediction) (nt : Nat) (lookahead : Lookahead) : Option Rule := do
  (p.alternatives nt)[← p.get? nt lookahead]?

/-- Whether every prediction is the only one. -/
def isLL1 (p : Prediction) : Bool := p.conflicts.isEmpty

def cellCount (p : Prediction) : Nat := p.rows.foldl (fun n row => n + row.cells.length) 0

def lookaheads (p : Prediction) : LookaheadSet :=
  NumberSet.ofList (p.rows.toList.flatMap fun row => row.cells.map Prod.fst)

def journal (p : Prediction) : List Journal.Entry :=
  [⟨.debug, "ll::table", "LL(1) table: " ++ Nat.repr p.cellCount ++ " cells, " ++
    Nat.repr p.conflicts.length ++ " conflicts"⟩]

/-! ### Printing a table -/

/-- An alternative of a nonterminal by number, as it is written in a conflict. -/
def alternativeText (p : Prediction) (g : Grammar) (nt i : Nat) : String :=
  "alternative " ++ Nat.repr i ++ " `" ++
    (match (p.alternatives nt)[i]? with
     | some alternative => g.ruleText alternative
     | none => "") ++ "`"

def conflictText (p : Prediction) (g : Grammar) (c : Conflict) : String :=
  "conflict in " ++ g.nonterminalName c.nonterminal ++ " on " ++ c.lookahead.name g ++ ": " ++
    p.alternativeText g c.nonterminal c.earlier ++ " and " ++
    p.alternativeText g c.nonterminal c.later

/-- The lookaheads that head the columns: terminals by number, then the end. -/
def headings (p : Prediction) : List Lookahead :=
  let members := LookaheadSet.members p.lookaheads
  members.filter (· ≠ .finish) ++ members.filter (· = .finish)

/-- The printed table: a row for each nonterminal with a rule, a column for each lookahead in use,
and below it the alternatives with their numbers. -/
def display (p : Prediction) (g : Grammar) : String :=
  let headings := p.headings
  let owners := g.nonterminals.ids.filter p.hasRule
  let header := "rule" :: headings.map (Lookahead.name g)
  let rows := owners.map fun nt =>
    g.nonterminalName nt :: headings.map fun lookahead =>
      match p.get? nt lookahead with
      | some alternative => Nat.repr alternative
      | none => ""
  let listed := owners.flatMap fun nt =>
    (p.alternatives nt).zipIdx.map fun (alternative, i) =>
      g.nonterminalName nt ++ "." ++ Nat.repr i ++ " : " ++ g.ruleText alternative ++ "\n"
  Text.columns (header :: rows) ++ "\n" ++ String.join listed

end Prediction

end RuleGrammar
