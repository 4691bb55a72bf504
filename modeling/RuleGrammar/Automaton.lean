import RuleGrammar.Automaton.Symbol
import RuleGrammar.Listing
import RuleGrammar.Text.Columns

/-!
# Automata

An automaton has numbered states, of which state zero is the start and state one is final from the
beginning, and transitions labelled with written symbols.  From one state a symbol may lead to several
states.

* `Automaton`: states, final states, symbols in the order of first use, and transitions.
* `addState`, `markFinal`, `link?`: the ways to make one larger.
* `transitions`: all transitions, by state, then by symbol, then by destination.
* `accepts`: whether a word of written symbols leads from the start to a final state.
* `display`: the printed table.
-/

namespace RuleGrammar

structure Automaton where
  stateCount : Nat := 2
  finals : NumberSet := .singleton 1
  symbols : SymbolTable := .empty
  -- the destinations by state and number of the symbol, in the order of first use
  links : List ((Nat × Nat) × NumberSet) := []
deriving DecidableEq

namespace Automaton

def start : Nat := 0

/-! ### Making automata -/

/-- The automaton with at least the states up to a number. -/
def withState (a : Automaton) (state : Nat) : Automaton :=
  { a with stateCount := max a.stateCount (state + 1) }

/-- The automaton with one more state, whose number is the old count. -/
def addState (a : Automaton) : Automaton := { a with stateCount := a.stateCount + 1 }

def markFinal (a : Automaton) (state : Nat) : Automaton :=
  let larger := a.withState state
  { larger with finals := larger.finals.insert state }

/-- Destinations with one more of them for a state and a symbol. -/
def addLink (key : Nat × Nat) (target : Nat) :
    List ((Nat × Nat) × NumberSet) → List ((Nat × Nat) × NumberSet)
  | [] => [(key, .singleton target)]
  | (other, targets) :: links =>
      if other = key then (other, targets.insert target) :: links
      else (other, targets) :: addLink key target links

/-- The automaton with one more transition, if the symbol has a meaning. -/
def link? (a : Automaton) (source target : Nat) (symbol : String) : Option Automaton :=
  match classify symbol with
  | some _ =>
      let larger := a.withState (max source target)
      some { larger with
        symbols := larger.symbols.insert symbol
        links := addLink (source, larger.symbols.slot symbol) target larger.links }
  | none => none

/-! ### Transitions -/

/-- Where a symbol leads from a state. -/
def targets (a : Automaton) (state symbol : Nat) : NumberSet :=
  (a.links.lookup (state, symbol)).getD .empty

/-- All transitions, by state, then by symbol in the order of first use, then by destination. -/
def transitions (a : Automaton) : List (Nat × String × Nat) :=
  (List.range a.stateCount).flatMap fun state =>
    a.symbols.names.toList.zipIdx.flatMap fun (symbol, i) =>
      (a.targets state i).toList.map fun target => (state, symbol, target)

/-- The numbers of the symbols that read nothing. -/
def emptySymbols (a : Automaton) : List Nat :=
  (a.symbols.names.toList.zipIdx.filter fun (symbol, _) => classify symbol = some .empty).map Prod.snd

/-- The states that are reached from a set of states without reading anything. -/
def emptyClosure (a : Automaton) (states : NumberSet) : NumberSet :=
  let symbols := a.emptySymbols
  states.closure (fun state => symbols.foldl (fun found i => found.union (a.targets state i)) .empty)
    a.stateCount

/-- The states that are reached from a set of states by reading a symbol. -/
def read (a : Automaton) (states : NumberSet) (symbol : Nat) : NumberSet :=
  a.emptyClosure (states.unionMap fun state => a.targets state symbol)

def acceptsFrom (a : Automaton) (states : NumberSet) : List String → Bool
  | [] => !states.disjoint a.finals
  | symbol :: word =>
      match a.symbols.id? symbol with
      | some i => a.acceptsFrom (a.read states i) word
      | none => false

/-- Whether a word of written symbols leads from the start to a final state. -/
def accepts (a : Automaton) (word : List String) : Bool :=
  a.acceptsFrom (a.emptyClosure (.singleton start)) word

/-! ### Printing -/

/-- The destinations from a state by a symbol; nothing where the symbol leads nowhere. -/
def cell (a : Automaton) (state symbol : Nat) : String :=
  match a.links.lookup (state, symbol) with
  | some targets => "\x7b" ++ ",".intercalate (targets.toList.map Nat.repr) ++ "\x7d"
  | none => ""

/-- The printed table: a row a state, with a star at final states, and a column a symbol. -/
def display (a : Automaton) : String :=
  let header := "state" :: a.symbols.names.toList.map fun symbol =>
    if classify symbol = some .empty then "ε" else symbol
  let rows := (List.range a.stateCount).map fun state =>
    ((if a.finals.contains state then "*" else "") ++ Nat.repr state) ::
      (List.range a.symbols.size).map (a.cell state)
  Text.columns (header :: rows)

def listing (a : Automaton) : String :=
  listedRecord "TransitionTable"
    [("state_count", Nat.repr a.stateCount),
     ("finals", a.finals.listing),
     ("symbols", listedInBraces (a.symbols.names.toList.map Text.quoted)),
     ("transitions", listedInBraces (a.links.map fun ((state, symbol), targets) =>
        "(" ++ Nat.repr state ++ ", " ++ Nat.repr symbol ++ "): " ++ targets.listing))]

end Automaton

end RuleGrammar
