import RuleGrammar.Automaton.Reduction
import RuleGrammar.Derivation

/-!
# Words along paths

* `Graph.Path G g s t w`: in the graph `g` a path from state `s` to state `t` reads the word `w`,
  where each arc reads a word that its tree derives in the grammar `G`.
* `Graph.Reads G g w`: the word is read from the start to the final state.
* `Graph.Simple g`: no two arcs have the same ends, and no arc leaves the final state.
* `Automaton.Reads G a w`: the word is put together from words of the symbols of an accepted word.
-/

namespace RuleGrammar

namespace Graph

/-- A path that reads a word. -/
inductive Path (G : Grammar) (g : Graph) : Nat → Nat → Word → Prop where
  | stay (s : Nat) : Path G g s s []
  | step {arc : Arc} {t : Nat} {u v : Word} (harc : arc ∈ g.arcs) (hu : Derives G arc.tree u)
      (hv : Path G g arc.target t v) : Path G g arc.source t (u ++ v)

/-- A word is read from the start to the final state. -/
def Reads (G : Grammar) (g : Graph) (w : Word) : Prop := Path G g start final w

/-- No two arcs have the same ends, and no arc leaves the final state. -/
structure Simple (g : Graph) : Prop where
  distinct : g.arcs.Pairwise fun a b => ¬ (a.source = b.source ∧ a.target = b.target)
  closed : ∀ arc ∈ g.arcs, arc.source ≠ final

end Graph

namespace Automaton

/-- The automata that can be made from the first one by adding states, final states and
transitions. -/
inductive Made : Automaton → Prop where
  | first : Made {}
  | addState {a : Automaton} (h : Made a) : Made a.addState
  | markFinal {a : Automaton} (h : Made a) (state : Nat) : Made (a.markFinal state)
  | link {a b : Automaton} {source target : Nat} {symbol : String} (h : Made a)
      (hlink : a.link? source target symbol = some b) : Made b

/-- What a written symbol reads in a grammar: the terminal itself, or a word of the nonterminal. -/
def SymbolReads (G : Grammar) (symbol : String) (w : Word) : Prop :=
  match classify symbol with
  | some (.terminal name) => ∃ t, G.terminals.id? name = some t ∧ w = [t]
  | some (.nonterminal name) =>
      ∃ nt, G.nonterminals.id? name = some nt ∧ Derives G (.reference nt false) w
  | _ => False

inductive SymbolsRead (G : Grammar) : List String → Word → Prop where
  | nil : SymbolsRead G [] []
  | cons {symbol : String} {symbols : List String} {u v : Word} (hu : SymbolReads G symbol u)
      (hv : SymbolsRead G symbols v) : SymbolsRead G (symbol :: symbols) (u ++ v)

/-- A word is put together from words of the symbols of an accepted list of symbols. -/
def Reads (G : Grammar) (a : Automaton) (w : Word) : Prop :=
  ∃ symbols, a.accepts symbols = true ∧ SymbolsRead G symbols w

end Automaton

end RuleGrammar
