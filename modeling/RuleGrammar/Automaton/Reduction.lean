import RuleGrammar.Automaton.Graph
import RuleGrammar.Revision

/-!
# State elimination

A graph is reduced to one arc from its start to its final state by taking out the states in between.
States are looked at from the highest number down: one with at most one arc in and one arc out goes at
once, two states that only lead to each other become an iteration, and otherwise the state goes whose
removal adds the least, the higher one of two that add the same.

* `Degree`: how many arcs lead into and out of a state, and how large their trees are.
* `Move`: what to do next, chosen by `nextMove?`.
* `reduce`: the graph after the last move, and the moves.
* `Automaton.toRegex`: the tree of an automaton.
-/

namespace RuleGrammar.Graph

/-! ### Choosing a move -/

/-- The arcs at a state, loops apart. -/
structure Degree where
  inCount : Nat
  outCount : Nat
  inSize : Nat
  outSize : Nat
  -- the leaves on the loop; zero if there is none
  loopSize : Nat
deriving DecidableEq, Repr

namespace Degree

/-- Whether at most one arc leads in and at most one leads out. -/
def isTrivial (d : Degree) : Bool := d.inCount ≤ 1 && d.outCount ≤ 1

/-- How many leaves the removal of the state adds. -/
def cost (d : Degree) : Nat :=
  d.inSize * (d.outCount - 1) + d.outSize * (d.inCount - 1) + d.inCount * d.outCount * d.loopSize

end Degree

def totalSize : List Arc → Nat
  | [] => 0
  | arc :: arcs => arc.tree.size + totalSize arcs

def degree (g : Graph) (state : Nat) : Degree :=
  let ins := g.arcs.filter (enters state)
  let outs := g.arcs.filter (leaves state)
  let loop := match (g.arcs.filter (loops state)).getLast? with
    | some arc => arc.tree.size
    | none => 0
  ⟨ins.length, outs.length, totalSize ins, totalSize outs, loop⟩

/-- The other state of a loop of two: the one state with an arc to `state`, which leads nowhere else
and has an arc back, where `state` has no loop of its own. -/
def loopPartner? (g : Graph) (state : Nat) : Option Nat :=
  let d := g.degree state
  if d.inCount = 1 ∧ d.loopSize = 0 then
    match g.arcs.find? (enters state) with
    | some into =>
        let other := into.source
        if g.arcs.any fun arc => arc.source == other && arc.target != state then none
        else if g.arcs.any fun arc => arc.source == state && arc.target == other then some other
        else none
    | none => none
  else none

inductive Move where
  | trivial (state : Nat)
  | cheapest (state cost : Nat)
  | fold (other state : Nat)
deriving DecidableEq, Repr

/-- The move that a list of states gives, where `best` is the cheapest state so far. -/
def moveAmong (g : Graph) : List Nat → Option (Nat × Nat) → Option Move
  | [], best => best.map fun (state, cost) => .cheapest state cost
  | state :: states, best =>
      let d := g.degree state
      if d.isTrivial then some (.trivial state)
      else
        match g.loopPartner? state with
        | some other => some (.fold other state)
        | none =>
            g.moveAmong states
              (match best with
               | some (chosen, cost) =>
                   if d.cost < cost then some (state, d.cost) else some (chosen, cost)
               | none => some (state, d.cost))

/-- The states between the start and the final state, from the highest number down. -/
def candidates (g : Graph) : List Nat :=
  (g.states.filter fun state => state != start && state != final).mergeSort fun a b => decide (b ≤ a)

/-- The next move, if any state is left between the start and the final state. -/
def nextMove? (g : Graph) : Option Move := g.moveAmong g.candidates none

def apply (g : Graph) : Move → Graph
  | .trivial state => g.eliminate state
  | .cheapest state _ => g.eliminate state
  | .fold other state => g.foldLoop other state

/-! ### Every move shrinks the graph -/

theorem length_addArc_le (arc : Arc) (arcs : List Arc) :
    (addArc arc arcs).length ≤ arcs.length + 1 := by
  induction arcs with
  | nil => simp [addArc]
  | cons other arcs ih =>
      rw [addArc]
      split
      · simp
      · simp only [List.length_cons]
        omega

theorem length_foldl_addArc_le (arcs merged : List Arc) :
    (arcs.foldl (fun merged arc => addArc arc merged) merged).length
      ≤ merged.length + arcs.length := by
  induction arcs generalizing merged with
  | nil => simp
  | cons arc arcs ih =>
      rw [List.foldl_cons]
      have h₁ := ih (addArc arc merged)
      have h₂ := length_addArc_le arc merged
      simp only [List.length_cons]
      omega

theorem length_arcs_merge_le (g : Graph) : g.merge.arcs.length ≤ g.arcs.length := by
  have := length_foldl_addArc_le g.arcs []
  simpa [merge] using this

theorem length_states_eliminate_lt {g : Graph} {state : Nat} (h : state ∈ g.states) :
    (g.eliminate state).states.length < g.states.length := by
  show (g.states.filter (· != state)).length < g.states.length
  exact List.length_filter_lt_length_iff_exists.2 ⟨state, h, by simp⟩

theorem exists_arc_of_loopPartner? {g : Graph} {state other : Nat}
    (h : g.loopPartner? state = some other) :
    (g.arcs.any fun arc => arc.source == state && arc.target == other) = true := by
  unfold loopPartner? at h
  dsimp only at h
  split at h
  · split at h
    · split at h
      · cases h
      · split at h
        · next hany => cases h; exact hany
        · cases h
    · cases h
  · cases h

theorem length_arcs_foldLoop_lt {g : Graph} {state other : Nat}
    (h : (g.arcs.any fun arc => arc.source == state && arc.target == other) = true) :
    (g.foldLoop other state).arcs.length < g.arcs.length := by
  obtain ⟨arc, hmem, harc⟩ := List.any_eq_true.1 h
  have hlen := List.length_eraseP_of_mem
    (p := fun arc : Arc => arc.source == state && arc.target == other) hmem harc
  have hpos := List.length_pos_of_mem hmem
  unfold foldLoop
  split
  · simp only [List.length_map, hlen]
    omega
  · next hnone => exact absurd harc (by simpa using List.find?_eq_none.1 hnone arc hmem)

/-- A move is smaller than the graph it starts from: it has fewer states, or as many states and fewer
arcs. -/
def Shrinks (g : Graph) (m : Move) : Prop :=
  (g.apply m).states.length < g.states.length ∨
    ((g.apply m).states.length = g.states.length ∧ (g.apply m).arcs.length < g.arcs.length)

theorem states_foldLoop (g : Graph) (other state : Nat) :
    (g.foldLoop other state).states = g.states := by
  unfold foldLoop
  split <;> rfl

theorem shrinks_of_moveAmong {g : Graph} {states : List Nat} {best : Option (Nat × Nat)} {m : Move}
    (hstates : ∀ s ∈ states, s ∈ g.states) (hbest : ∀ p, best = some p → p.1 ∈ g.states)
    (h : g.moveAmong states best = some m) : g.Shrinks m := by
  induction states generalizing best with
  | nil =>
      simp only [moveAmong, Option.map_eq_some_iff] at h
      obtain ⟨p, hp, rfl⟩ := h
      exact Or.inl (length_states_eliminate_lt (hbest p hp))
  | cons state states ih =>
      simp only [moveAmong] at h
      split at h
      · cases h
        exact Or.inl (length_states_eliminate_lt (hstates state (by simp)))
      · split at h
        · next other hother =>
            cases h
            exact Or.inr ⟨congrArg List.length (states_foldLoop g other state),
              length_arcs_foldLoop_lt (exists_arc_of_loopPartner? hother)⟩
        · refine ih (fun s hs => hstates s (by simp [hs])) (fun p hp => ?_) h
          split at hp
          · split at hp
            · cases hp
              exact hstates state (by simp)
            · cases hp
              exact hbest _ rfl
          · cases hp
            exact hstates state (by simp)

theorem shrinks_of_nextMove? {g : Graph} {m : Move} (h : g.nextMove? = some m) : g.Shrinks m := by
  refine shrinks_of_moveAmong (fun s hs => ?_) (fun p hp => by cases hp) h
  rw [candidates, List.mem_mergeSort] at hs
  exact (List.mem_filter.1 hs).1

/-! ### Reduction -/

/-- The graph after all moves, merged before each of them and at the end, and the moves. -/
def reduce (g : Graph) : Graph × List Move :=
  match h : g.merge.nextMove? with
  | none => (g.merge, [])
  | some move =>
      have hlt : Prod.Lex (· < ·) (· < ·)
          ((g.merge.apply move).states.length, (g.merge.apply move).arcs.length)
          (g.states.length, g.arcs.length) := by
        have hmerge := length_arcs_merge_le g
        rcases shrinks_of_nextMove? h with hs | ⟨hs, ha⟩
        · exact Prod.Lex.left _ _ hs
        · rw [show (g.merge.apply move).states.length = g.states.length from hs]
          exact Prod.Lex.right _ (by omega)
      let (last, moves) := (g.merge.apply move).reduce
      (last, move :: moves)
termination_by (g.states.length, g.arcs.length)
decreasing_by exact hlt

/-- The tree on the arc from the start to the final state; the empty word if there is none. -/
def spanningTree (g : Graph) : Rule :=
  match g.arcs.find? fun arc => arc.source == start && arc.target == final with
  | some arc => arc.tree
  | none => Tree.epsilon

/-! ### Journal -/

def origin : String := "grammar::automaton::reduce"

def Move.entry : Move → Journal.Entry
  | .trivial state => ⟨.trace, origin, "eliminating trivial state " ++ Nat.repr state⟩
  | .cheapest state cost =>
      ⟨.trace, origin,
        "eliminating state " ++ Nat.repr state ++ " at cost " ++ Nat.repr cost⟩
  | .fold other state =>
      ⟨.trace, origin, "folding loop " ++ Nat.repr other ++ " <-> " ++ Nat.repr state ++
        " into an iteration"⟩

/-- The entries about the reduction of a graph by some moves to a last graph. -/
def reductionJournal (g last : Graph) (moves : List Move) : List Journal.Entry :=
  ⟨.debug, origin, "reducing arc graph with " ++ Nat.repr g.states.length ++ " states and " ++
      Nat.repr g.arcs.length ++ " arcs"⟩ ::
    moves.map Move.entry ++
    [⟨.debug, origin, "state elimination produced a tree of size " ++
      Nat.repr last.spanningTree.size⟩]

end RuleGrammar.Graph

namespace RuleGrammar.Automaton

/-- The tree of an automaton; the names of its symbols enter the grammar. -/
def toRegex (g : Grammar) (a : Automaton) : Revised Rule :=
  let (g, graph) := Graph.ofAutomaton g a
  let (last, moves) := graph.reduce
  ⟨g, last.spanningTree, graph.reductionJournal last moves⟩

end RuleGrammar.Automaton
