import RuleGrammar.Automaton

/-!
# Graphs of trees

A graph has states and arcs that carry trees.  State zero is the start and state one the final state;
the states of an automaton come after them.

* `Arc`, `Graph`: the graph.
* `Graph.ofAutomaton`: the graph of an automaton, whose symbols enter a grammar.
* `Graph.merge`: arcs with the same ends become one arc with alternatives.
* `Graph.eliminate`: a state is taken out, and each way through it becomes an arc.
* `Graph.foldLoop`: two states that only lead to each other become an iteration.
-/

namespace RuleGrammar

structure Arc where
  source : Nat
  target : Nat
  tree : Rule
deriving DecidableEq, Repr, Inhabited

structure Graph where
  states : List Nat
  arcs : List Arc
deriving DecidableEq, Repr

namespace Graph

def start : Nat := 0

def final : Nat := 1

/-- The state of a graph that stands for a state of an automaton. -/
def shifted (state : Nat) : Nat := state + 2

/-! ### The graph of an automaton -/

/-- The grammar with a symbol in its tables, and the tree of the symbol. -/
def internSymbol (g : Grammar) : Automaton.Symbol → Grammar × Rule
  | .empty => (g, Tree.epsilon)
  | .terminal name => (g.addTerminal name, .terminal (g.terminals.slot name))
  | .nonterminal name => (g.addNonterminal name, .reference (g.nonterminals.slot name) false)

/-- The arcs of transitions, whose symbols enter a grammar in order. -/
def transitionArcs (g : Grammar) : List (Nat × String × Nat) → Grammar × List Arc
  | [] => (g, [])
  | (source, symbol, target) :: rest =>
      let (g, tree) := internSymbol g ((Automaton.classify symbol).getD .empty)
      let (g, arcs) := transitionArcs g rest
      (g, ⟨shifted source, shifted target, tree⟩ :: arcs)

/-- The graph of an automaton: an arc into its start, arcs out of its final states, and its
transitions. -/
def ofAutomaton (g : Grammar) (a : Automaton) : Grammar × Graph :=
  let (g, arcs) := transitionArcs g a.transitions
  (g,
    { states := start :: final :: (List.range a.stateCount).map shifted
      arcs := ⟨start, shifted Automaton.start, Tree.epsilon⟩ ::
        a.finals.toList.map (fun state => ⟨shifted state, final, Tree.epsilon⟩) ++ arcs })

/-! ### Steps that shrink a graph -/

/-- Arcs with one more of them: an alternative of the arc with the same ends, or a new arc. -/
def addArc (arc : Arc) : List Arc → List Arc
  | [] => [arc]
  | other :: arcs =>
      if other.source = arc.source ∧ other.target = arc.target then
        { other with tree := .alt other.tree arc.tree } :: arcs
      else other :: addArc arc arcs

/-- The graph with arcs of the same ends made one, in the place of the first of them. -/
def merge (g : Graph) : Graph :=
  { g with arcs := g.arcs.foldl (fun arcs arc => addArc arc arcs) [] }

def enters (state : Nat) (arc : Arc) : Bool := arc.target == state && arc.source != state

def leaves (state : Nat) (arc : Arc) : Bool := arc.source == state && arc.target != state

def loops (state : Nat) (arc : Arc) : Bool := arc.source == state && arc.target == state

/-- What is read while a state is not left: any number of rounds of its loop. -/
def loopTree (g : Graph) (state : Nat) : Rule :=
  match g.arcs.find? (loops state) with
  | some arc => .iter Tree.epsilon arc.tree
  | none => Tree.epsilon

/-- The graph without a state.  Each pair of an arc into it and an arc out of it becomes one arc, with
the rounds of its loop in between. -/
def eliminate (g : Graph) (state : Nat) : Graph :=
  let rest := g.arcs.filter fun arc => arc.source != state && arc.target != state
  let through := (g.arcs.filter (enters state)).flatMap fun into =>
    (g.arcs.filter (leaves state)).map fun out =>
      ⟨into.source, out.target, (into.tree.join (g.loopTree state)).join out.tree⟩
  { states := g.states.filter (· != state), arcs := rest ++ through }

/-- The graph in which the arc from `other` to `state` is iterated with the arc back, which is taken
away. -/
def foldLoop (g : Graph) (other state : Nat) : Graph :=
  match g.arcs.find? fun arc => arc.source == state && arc.target == other with
  | some back =>
      { g with arcs :=
          (g.arcs.eraseP fun arc => arc.source == state && arc.target == other).map fun arc =>
            if arc.source = other ∧ arc.target = state then
              { arc with tree := .iter arc.tree back.tree }
            else arc }
  | none => g

/-! ### Listing -/

def listing (g : Graph) : String :=
  listedRecord "ArcGraph"
    [("states", listedInBrackets (g.states.map Nat.repr)),
     ("arcs", listedInBrackets (g.arcs.map fun arc =>
        listedRecord "Arc"
          [("from", Nat.repr arc.source), ("to", Nat.repr arc.target),
           ("tree", arc.tree.listing)]))]

end Graph

end RuleGrammar
