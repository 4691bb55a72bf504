import Mathlib.Data.Finset.Order
import Mathlib.Logic.Function.Iterate
import RuleGrammar.Proofs.Automaton.Regex
import RuleGrammar.Proofs.Characters

/-!
# States can be taken out in any order

Every step of a reduction keeps the words along the paths from the start to the final state, so it does
not matter for the words in which order the states in between are taken out.  It matters neither whether
loops of two states are folded on the way, nor for graphs whose start can be entered again or whose final
state can be left: the tree that is left on the way from the start to the final state has the words of the
paths through the states that were taken out.

* `round`, `LoopEnds`: the loop that merges and moves as long as more than two states are left.
* `loopEnds_reduce`: the loop ends, with what the reduction comes to.
* `exists_live`: a grammar in which the tree of every arc derives some word.
* `eliminateAll g order`: the graph after the states of a list are taken out in this order.
* `core g inner`: the part of a graph between the start, some inner states and the final state; it is all
  that the removal of these states depends on, by `eliminateAll_core` and `spanningTree_core`.
* `spanningTree_eliminateAll`: the words of the tree that is left.
* `removal_order_irrelevant`: steps, loop and order together.
-/

namespace RuleGrammar

/-- In a grammar in which every nonterminal derives the empty word, every tree over its nonterminals
derives some word. -/
theorem Grammar.exists_derives_emptied (K : Grammar) {t : Rule}
    (ht : ∀ nt ∈ t.references, nt < K.nonterminals.size) : ∃ u, Derives K.emptied t u := by
  have hleft : ∀ {t l r : Rule}, t.mentions = l.mentions ++ r.mentions →
      (∀ nt ∈ t.references, nt < K.nonterminals.size) →
      ∀ nt ∈ l.references, nt < K.nonterminals.size := by
    intro t l r hmentions ht nt hnt
    refine ht nt ?_
    rw [Tree.references, hmentions, List.map_append]
    exact List.mem_append_left _ hnt
  induction t with
  | terminal a =>
      by_cases hzero : a = 0
      · rw [hzero]
        exact ⟨[], Derives.empty⟩
      · exact ⟨[a], Derives.terminal hzero⟩
  | semantic a => exact ⟨[], Derives.semantic⟩
  | reference nt opened =>
      exact ⟨[], K.derives_emptied_reference (ht nt (by simp [Tree.references, Tree.mentions])) opened⟩
  | seq l r ihl ihr =>
      obtain ⟨u, hu⟩ := ihl (hleft rfl ht)
      obtain ⟨v, hv⟩ := ihr fun nt hnt => ht nt (by
        rw [Tree.references, Tree.mentions, List.map_append]
        exact List.mem_append_right _ hnt)
      exact ⟨u ++ v, Derives.seq hu hv⟩
  | alt l r ihl _ =>
      obtain ⟨u, hu⟩ := ihl (hleft rfl ht)
      exact ⟨u, Derives.altLeft hu⟩
  | iter l r ihl _ =>
      obtain ⟨u, hu⟩ := ihl (hleft rfl ht)
      exact ⟨u, Derives.iterOnce hu⟩

namespace Graph

variable {G K : Grammar} {g : Graph} {w : Word} {inner order : List Nat} {state : Nat}

/-! ### The loop -/

/-- One round of the loop: arcs of the same ends are made one, and the next move is made, if there is
one. -/
def round (g : Graph) : Graph :=
  match g.merge.nextMove? with
  | some move => g.merge.apply move
  | none => g.merge

/-- The loop that goes on as long as there are more than two states ends, and merging what it ends with
gives the last graph. -/
def LoopEnds (g last : Graph) : Prop :=
  ∃ rounds, (∀ k < rounds, 2 < (round^[k] g).states.length) ∧
    (round^[rounds] g).states.length ≤ 2 ∧ last = (round^[rounds] g).merge

structure Framed (g : Graph) : Prop where
  distinct : g.states.Nodup
  start_mem : start ∈ g.states
  final_mem : final ∈ g.states

/-- As long as there are more than two states, and no longer, there is a move. -/
theorem Framed.nextMove?_eq_none_iff (hg : g.Framed) : g.nextMove? = none ↔ g.states.length ≤ 2 := by
  constructor
  · intro hnone
    have hsub : g.states.Subperm [start, final] := hg.distinct.subperm fun s hs => by
      rcases eq_start_or_final_of_nextMove? hnone hs with rfl | rfl <;> simp
    exact hsub.length_le
  · intro hlength
    have hnodup : [start, final].Nodup := by decide
    have hsub : [start, final].Subperm g.states :=
      hnodup.subperm (by simp [hg.start_mem, hg.final_mem])
    have hperm := hsub.perm_of_length_le hlength
    have hnone : g.candidates = [] := by
      refine List.eq_nil_iff_forall_not_mem.2 fun s hs => ?_
      obtain ⟨hmem, hstart, hfinal⟩ := mem_candidates_iff.1 hs
      have hends := hperm.mem_iff.2 hmem
      simp [hstart, hfinal] at hends
    rw [nextMove?, hnone]
    rfl

theorem Framed.apply (hg : g.Framed) {m : Move} (hm : g.Allowed m) : (g.apply m).Framed := by
  have heliminate : ∀ {s : Nat}, s ≠ start ∧ s ≠ final → (g.eliminate s).Framed := by
    intro s hs
    refine ⟨hg.distinct.filter _, List.mem_filter.2 ⟨hg.start_mem, ?_⟩,
      List.mem_filter.2 ⟨hg.final_mem, ?_⟩⟩
    · simpa using hs.1.symm
    · simpa using hs.2.symm
  cases m with
  | trivial s => exact heliminate hm
  | cheapest s cost => exact heliminate hm
  | fold other s =>
      have hstates : (g.apply (.fold other s)).states = g.states := states_foldLoop g other s
      exact ⟨hstates ▸ hg.distinct, hstates ▸ hg.start_mem, hstates ▸ hg.final_mem⟩

/-- **The loop ends**, with the graph that the reduction comes to. -/
theorem loopEnds_reduce : ∀ g : Graph, g.Framed → g.LoopEnds g.reduce.1 := by
  intro g
  induction g using reduce.induct with
  | case1 g hnone =>
      intro hg
      have hmerge : g.merge.Framed := ⟨hg.distinct, hg.start_mem, hg.final_mem⟩
      exact ⟨0, by simp, hmerge.nextMove?_eq_none_iff.1 hnone, reduce_of_none hnone⟩
  | case2 g move hsome _ _ _ _ ih =>
      intro hg
      have hmerge : g.merge.Framed := ⟨hg.distinct, hg.start_mem, hg.final_mem⟩
      have hround : g.round = g.merge.apply move := by rw [round, hsome]
      obtain ⟨rounds, hgoes, hends, hlast⟩ := ih (hmerge.apply (allowed_of_nextMove? hsome))
      rw [← hround] at hgoes hends hlast
      refine ⟨rounds + 1, fun k hk => ?_, hends, ?_⟩
      · cases k with
        | zero =>
            show 2 < g.states.length
            by_contra hle
            have hnone := hmerge.nextMove?_eq_none_iff.2 (Nat.le_of_not_lt hle)
            rw [hsome] at hnone
            cases hnone
        | succ k => exact hgoes k (by omega)
      · rw [reduce_of_some hsome, ← hround]
        exact hlast

theorem framed_ofAutomaton (K : Grammar) (a : Automaton) : (ofAutomaton K a).2.Framed := by
  refine ⟨?_, List.mem_cons_self, List.mem_cons_of_mem _ List.mem_cons_self⟩
  show (start :: final :: (List.range a.stateCount).map shifted).Nodup
  refine List.nodup_cons.2 ⟨?_, List.nodup_cons.2 ⟨?_, List.nodup_range.map fun s t h => ?_⟩⟩
  · simp [start, final, shifted]
  · simp [final, shifted]
  · exact Nat.add_right_cancel h

/-! ### A grammar in which all trees are live -/

/-- A table of the numbers below a bound as names. -/
def numbered (count : Nat) : SymbolTable where
  names := ((List.range count).map Nat.repr).toArray
  distinct := by
    rw [List.toList_toArray]
    exact List.nodup_range.map fun _ _ h => SymbolTable.repr_injective h

/-- **For every graph there is a grammar in which the tree of every arc derives some word.** -/
theorem exists_live (g : Graph) : ∃ K, g.Live K := by
  obtain ⟨bound, hbound⟩ := (g.arcs.flatMap fun arc => arc.tree.references).toFinset.exists_le
  let K : Grammar := { Grammar.empty with nonterminals := numbered (bound + 1) }
  refine ⟨K.emptied, fun arc harc => K.exists_derives_emptied fun nt hnt => ?_⟩
  have hle : nt ≤ bound := hbound nt (List.mem_toFinset.2 (List.mem_flatMap.2 ⟨arc, harc, hnt⟩))
  show nt < (numbered (bound + 1)).names.size
  simpa [numbered] using Nat.lt_succ_of_le hle

/-! ### Taking out states one after the other -/

/-- The graph without the states of a list, which are taken out in this order, with arcs of the same ends
made one before each of them and at the end. -/
def eliminateAll (g : Graph) : List Nat → Graph
  | [] => g.merge
  | state :: order => (g.merge.eliminate state).eliminateAll order

/-- Whether an arc leads from the start or an inner state to an inner state or the final state. -/
def spans (inner : List Nat) (arc : Arc) : Bool :=
  (arc.source == start || inner.contains arc.source) &&
    (arc.target == final || inner.contains arc.target)

theorem spans_iff {arc : Arc} : spans inner arc = true ↔
    (arc.source = start ∨ arc.source ∈ inner) ∧ (arc.target = final ∨ arc.target ∈ inner) := by
  simp [spans]

theorem source_ne_final_of_spans (hfinal : final ∉ inner) {arc : Arc} (h : spans inner arc = true) :
    arc.source ≠ final := by
  intro heq
  rcases (spans_iff.1 h).1 with hstart | hmem
  · exact Nat.zero_ne_one (hstart.symm.trans heq)
  · exact hfinal (heq ▸ hmem)

/-- When a state is taken out, the arcs lead between those that are left. -/
theorem spans_eliminate (h : ∀ arc ∈ g.arcs, spans (state :: inner) arc = true) :
    ∀ arc ∈ (g.eliminate state).arcs, spans inner arc = true := by
  intro arc harc
  rw [spans_iff]
  rcases mem_arcs_eliminate.1 harc with
    ⟨harc, hsource, htarget⟩ | ⟨into, hinto, _, hsource, out, hout, _, htarget, rfl⟩
  · have hends := spans_iff.1 (h arc harc)
    simpa [hsource, htarget] using hends
  · have hins := (spans_iff.1 (h into hinto)).1
    have houts := (spans_iff.1 (h out hout)).2
    simp only [List.mem_cons, hsource, htarget, false_or] at hins houts
    exact ⟨hins, houts⟩

/-- **The words of the tree that is left** when the inner states of a graph are taken out are those of its
paths, if some word can be read when all trees are taken for live; otherwise no arc is left.  By induction
on the states that are still to be taken out. -/
theorem spanningTree_eliminateAll (order : List Nat) : ∀ {g : Graph},
    (∀ arc ∈ g.arcs, spans order arc = true) → start ∉ order → final ∉ order → g.Live K →
      ((∃ u, Reads K g u) → ∀ G w, Derives G (g.eliminateAll order).spanningTree w ↔ Reads G g w) ∧
        ((¬ ∃ u, Reads K g u) → (g.eliminateAll order).spanningTree = Tree.epsilon) := by
  induction order with
  | nil =>
      intro g hspans _ _ hlive
      refine spanningTree_of_ends (fun arc harc => ?_) hlive
      simpa [spans] using hspans arc harc
  | cons state order ih =>
      intro g hspans hstart hfinal hlive
      have hmerged : ∀ arc ∈ g.merge.arcs, spans (state :: order) arc = true :=
        forall_arcs_merge (fun _ _ ha _ _ _ => ha) hspans
      have hclosed : ∀ arc ∈ g.arcs, arc.source ≠ final :=
        fun arc harc => source_ne_final_of_spans hfinal (hspans arc harc)
      have hlive' : (g.merge.eliminate state).Live K :=
        forall_trees_eliminate (composable_derives K)
          (forall_trees_merge (composable_derives K) hlive) state
      have hreads : ∀ G w, Reads G (g.merge.eliminate state) w ↔ Reads G g w := by
        intro G w
        refine (path_eliminate_iff (simple_merge hclosed) ?_ ?_).trans path_merge_iff
        · exact fun h => hstart (h ▸ List.mem_cons_self)
        · exact fun h => hfinal (h ▸ List.mem_cons_self)
      have htree := ih (spans_eliminate hmerged) (fun h => hstart (List.mem_cons_of_mem _ h))
        (fun h => hfinal (List.mem_cons_of_mem _ h)) hlive'
      simp only [hreads] at htree
      exact htree

/-! ### The part of a graph that matters -/

/-- The graph with the arcs only that lead from the start or an inner state to an inner state or the final
state. -/
def core (g : Graph) (inner : List Nat) : Graph := { g with arcs := g.arcs.filter (spans inner) }

/-- What is decided by the ends of arcs can be decided before or after an arc is added. -/
theorem filter_addArc {p : Arc → Bool}
    (hp : ∀ a b : Arc, a.source = b.source → a.target = b.target → p a = p b) (arc : Arc)
    (arcs : List Arc) :
    (addArc arc arcs).filter p
      = if p arc then addArc arc (arcs.filter p) else arcs.filter p := by
  induction arcs with
  | nil => cases harc : p arc <;> simp [addArc, harc]
  | cons other arcs ih =>
      rw [addArc]
      by_cases hends : other.source = arc.source ∧ other.target = arc.target
      · have hsame : p other = p arc := hp other arc hends.1 hends.2
        have hmerged : p { other with tree := .alt other.tree arc.tree } = p arc :=
          hp _ arc hends.1 hends.2
        rw [if_pos hends, List.filter_cons, List.filter_cons, hmerged, hsame]
        cases p arc with
        | false => rfl
        | true => simp [addArc, hends]
      · rw [if_neg hends]
        cases hother : p other <;> cases harc : p arc <;> simp [addArc, hends, hother, harc, ih]

theorem merge_core (g : Graph) (inner : List Nat) : (g.core inner).merge = g.merge.core inner := by
  have hp : ∀ a b : Arc, a.source = b.source → a.target = b.target → spans inner a = spans inner b := by
    intro a b hsource htarget
    rw [spans, spans, hsource, htarget]
  have hfold : ∀ arcs merged : List Arc,
      (arcs.filter (spans inner)).foldl (fun merged arc => addArc arc merged)
          (merged.filter (spans inner))
        = (arcs.foldl (fun merged arc => addArc arc merged) merged).filter (spans inner) := by
    intro arcs
    induction arcs with
    | nil => exact fun merged => rfl
    | cons arc arcs ih =>
        intro merged
        rw [List.foldl_cons, ← ih, filter_addArc hp]
        cases harc : spans inner arc <;> simp [harc]
  exact congrArg (Graph.mk g.states) (hfold g.arcs [])

theorem find?_core {p : Arc → Bool} (hp : ∀ arc, p arc = true → spans inner arc = true) :
    (g.core inner).arcs.find? p = g.arcs.find? p := by
  show (g.arcs.filter (spans inner)).find? p = _
  rw [List.find?_filter]
  refine congrArg (g.arcs.find? ·) (funext fun arc => ?_)
  cases hpa : p arc with
  | false => simp
  | true => simp [hp arc hpa]

/-- Pairs of which both halves pass are the pairs of the halves that pass. -/
theorem filter_flatMap_map {α β : Type} {xs ys : List α} {f : α → α → β} {p : β → Bool} {q : α → Bool}
    (h : ∀ x ∈ xs, ∀ y ∈ ys, p (f x y) = (q x && q y)) :
    (xs.flatMap fun x => ys.map (f x)).filter p
      = (xs.filter q).flatMap fun x => (ys.filter q).map (f x) := by
  induction xs with
  | nil => rfl
  | cons x xs ih =>
      obtain ⟨hx, hxs⟩ := List.forall_mem_cons.1 h
      rw [List.flatMap_cons, List.filter_append, ih hxs, List.filter_map]
      have hhalf : ys.filter (p ∘ f x) = if q x then ys.filter q else [] := by
        cases hq : q x with
        | true => exact List.filter_congr fun y hy => by simp [hx y hy, hq]
        | false => exact List.filter_eq_nil_iff.2 fun y hy => by simp [hx y hy, hq]
      rw [hhalf]
      cases hq : q x <;> simp [hq]

theorem eliminate_core (g : Graph) (hstate : state ∈ inner) :
    (g.core inner).eliminate state = (g.eliminate state).core inner := by
  have hloop : (g.core inner).loopTree state = g.loopTree state := by
    unfold loopTree
    rw [find?_core]
    intro arc harc
    simp only [loops, Bool.and_eq_true, beq_iff_eq] at harc
    simp [spans_iff, harc, hstate]
  have hthrough : ∀ into ∈ g.arcs.filter (enters state), ∀ out ∈ g.arcs.filter (leaves state),
      spans inner ⟨into.source, out.target, (into.tree.join (g.loopTree state)).join out.tree⟩
        = (spans inner into && spans inner out) := by
    intro into hinto out hout
    have hends : into.target = state ∧ out.source = state := by
      simp only [List.mem_filter, enters, leaves, Bool.and_eq_true, beq_iff_eq] at hinto hout
      exact ⟨hinto.2.1, hout.2.1⟩
    simp [spans, hends, hstate]
  unfold eliminate
  rw [hloop]
  simp only [core, List.filter_append, filter_flatMap_map hthrough]
  rw [List.filter_comm, List.filter_comm (enters state), List.filter_comm (leaves state)]

/-- The tree on the way from the start to the final state is that of the core. -/
theorem spanningTree_core (g : Graph) (inner : List Nat) :
    (g.core inner).spanningTree = g.spanningTree := by
  unfold spanningTree
  rw [find?_core]
  intro arc harc
  simp only [Bool.and_eq_true, beq_iff_eq] at harc
  simp [spans_iff, harc]

/-- Inner states can be taken out of the core. -/
theorem eliminateAll_core (order : List Nat) : ∀ {g : Graph}, (∀ s ∈ order, s ∈ inner) →
    (g.core inner).eliminateAll order = (g.eliminateAll order).core inner := by
  induction order with
  | nil => exact fun _ => merge_core _ inner
  | cons state order ih =>
      intro g horder
      obtain ⟨hstate, horder⟩ := List.forall_mem_cons.1 horder
      rw [eliminateAll, merge_core, eliminate_core _ hstate, ih horder, eliminateAll]

/-! ### Any order -/

/-- The tree that is left when states are taken out has the words of the paths through these states. -/
theorem spanningTree_eliminateAll_core (hlive : (g.core order).Live K) (hstart : start ∉ order)
    (hfinal : final ∉ order) :
    ((∃ u, Reads K (g.core order) u) →
        ∀ G w, Derives G (g.eliminateAll order).spanningTree w ↔ Reads G (g.core order) w) ∧
      ((¬ ∃ u, Reads K (g.core order) u) → (g.eliminateAll order).spanningTree = Tree.epsilon) := by
  have htree := spanningTree_eliminateAll order (g := g.core order)
    (fun arc harc => (List.mem_filter.1 harc).2) hstart hfinal hlive
  rwa [eliminateAll_core order fun s hs => hs, spanningTree_core] at htree

theorem core_congr {order' : List Nat} (hmem : ∀ s, s ∈ order ↔ s ∈ order') :
    g.core order = g.core order' := by
  have hspans : spans order = spans order' := by
    funext arc
    rw [Bool.eq_iff_iff, spans_iff, spans_iff, hmem, hmem]
  rw [core, core, hspans]

/-- **Any two orders of the same states** leave trees of the same words. -/
theorem derives_eliminateAll_congr {order' : List Nat} (hmem : ∀ s, s ∈ order ↔ s ∈ order')
    (hstart : start ∉ order) (hfinal : final ∉ order) :
    Derives G (g.eliminateAll order).spanningTree w ↔
      Derives G (g.eliminateAll order').spanningTree w := by
  obtain ⟨K, hlive⟩ := exists_live (g.core order)
  obtain ⟨hsome, hnone⟩ := spanningTree_eliminateAll_core hlive hstart hfinal
  rw [core_congr hmem] at hsome hnone hlive
  obtain ⟨hsome', hnone'⟩ := spanningTree_eliminateAll_core hlive
    (fun h => hstart ((hmem _).2 h)) (fun h => hfinal ((hmem _).2 h))
  by_cases hreads : ∃ u, Reads K (g.core order') u
  · rw [hsome hreads, hsome' hreads]
  · rw [hnone hreads, hnone' hreads]

/-- **Any order of all states in between** leaves a tree with the words of the one that the reduction
leaves, whichever loops that folds. -/
theorem derives_eliminateAll_iff_reduce (hg : g.Proper) (horder : ∀ s, s ∈ order ↔ s ∈ g.candidates) :
    Derives G (g.eliminateAll order).spanningTree w ↔ Derives G g.reduce.1.spanningTree w := by
  have hstart : start ∉ order := fun h => (mem_candidates_iff.1 ((horder _).1 h)).2.1 rfl
  have hfinal : final ∉ order := fun h => (mem_candidates_iff.1 ((horder _).1 h)).2.2 rfl
  have hspans : ∀ arc ∈ g.arcs, spans order arc = true := by
    intro arc harc
    rw [spans_iff, horder, horder, mem_candidates_iff, mem_candidates_iff]
    have hsource := hg.source_mem arc harc
    have htarget := hg.target_mem arc harc
    have hclosed := hg.closed arc harc
    have hunentered := hg.unentered arc harc
    grind
  obtain ⟨K, hlive⟩ := exists_live g
  obtain ⟨hsome, hnone⟩ := spanningTree_eliminateAll order hspans hstart hfinal hlive
  obtain ⟨hsome', hnone'⟩ := spanningTree_reduce hg hlive
  by_cases hreads : ∃ u, Reads K g u
  · rw [hsome hreads, hsome' hreads]
  · rw [hnone hreads, hnone' hreads]

/-- **Every step keeps the words along paths, so the order of removal is irrelevant.**  In every grammar:
on a graph in which no two arcs have the same ends and no arc leaves the final state, taking out a state in
between keeps the words that are read from the start to the final state, and so does folding it with its
partner; merging does so on any graph.  From the graph of any automaton the loop of the reduction ends,
with what the reduction comes to.  On any graph, taking out the same states in two orders, with merging in
between, leaves trees of the same words; and for the graph of an automaton these are the words of its
tree, whatever the order in which all states in between are taken out. -/
theorem removal_order_irrelevant (G : Grammar) :
    (∀ g : Graph, g.Simple → ∀ state, state ≠ start → state ≠ final → ∀ w,
      (Reads G (g.eliminate state) w ↔ Reads G g w) ∧
        ∀ other, g.loopPartner? state = some other →
          (Reads G (g.foldLoop other state) w ↔ Reads G g w)) ∧
    (∀ (g : Graph) w, Reads G g.merge w ↔ Reads G g w) ∧
    (∀ (K : Grammar) (a : Automaton), (ofAutomaton K a).2.LoopEnds (ofAutomaton K a).2.reduce.1) ∧
    (∀ (g : Graph) (order order' : List Nat), (∀ s, s ∈ order ↔ s ∈ order') → start ∉ order →
      final ∉ order → ∀ w, Derives G (g.eliminateAll order).spanningTree w ↔
        Derives G (g.eliminateAll order').spanningTree w) ∧
    ∀ (K : Grammar) (a : Automaton), a.Made → ∀ order : List Nat,
      (∀ s, s ∈ order ↔ s ∈ (ofAutomaton K a).2.candidates) → ∀ w,
        (Derives G ((ofAutomaton K a).2.eliminateAll order).spanningTree w ↔
          Derives G (a.toRegex K).result w) := by
  refine ⟨fun g hsimple state hstart hfinal w => ⟨?_, fun other hpartner => ?_⟩,
    fun g w => path_merge_iff, fun K a => loopEnds_reduce _ (framed_ofAutomaton K a),
    fun g order order' hmem hstart hfinal w => derives_eliminateAll_congr hmem hstart hfinal,
    fun K a ha order horder w => ?_⟩
  · exact reads_apply_iff (m := .trivial state) hsimple ⟨hstart, hfinal⟩
  · exact reads_apply_iff (m := .fold other state) hsimple ⟨⟨hstart, hfinal⟩, hpartner⟩
  · exact derives_eliminateAll_iff_reduce (proper_ofAutomaton (Automaton.sound_of_made ha)) horder

/-- Two states in between that only lead to each other, and an arc from the second to the final state. -/
def loopOfTwo : Graph where
  states := [0, 1, 2, 3]
  arcs := [⟨0, 2, Tree.epsilon⟩, ⟨2, 3, .terminal 1⟩, ⟨3, 2, .terminal 2⟩, ⟨3, 1, Tree.epsilon⟩]

theorem removal_order_irrelevant_loopOfTwo :
    loopOfTwo.Simple ∧ loopOfTwo.loopPartner? 3 = some 2 ∧
      (∀ w, (Reads Grammar.empty (loopOfTwo.eliminate 3) w ↔ Reads Grammar.empty loopOfTwo w) ∧
        (Reads Grammar.empty (loopOfTwo.foldLoop 2 3) w ↔ Reads Grammar.empty loopOfTwo w)) ∧
      (loopOfTwo.eliminateAll [2, 3]).spanningTree
        = .seq (.terminal 1) (.iter Tree.epsilon (.seq (.terminal 2) (.terminal 1))) ∧
      (loopOfTwo.eliminateAll [3, 2]).spanningTree
        = .seq (.iter Tree.epsilon (.seq (.terminal 1) (.terminal 2))) (.terminal 1) ∧
      (∀ w, Derives Grammar.empty (loopOfTwo.eliminateAll [2, 3]).spanningTree w ↔
        Derives Grammar.empty (loopOfTwo.eliminateAll [3, 2]).spanningTree w) ∧
      Automaton.oneThenMany.Made ∧
      ∀ w, Derives Grammar.empty ((ofAutomaton Grammar.empty Automaton.oneThenMany).2.eliminateAll
          [2, 3, 4]).spanningTree w ↔
        Derives Grammar.empty (Automaton.oneThenMany.toRegex Grammar.empty).result w := by
  obtain ⟨hsteps, -, -, horders, hautomaton⟩ := removal_order_irrelevant Grammar.empty
  have hsimple : loopOfTwo.Simple := ⟨by decide, by decide⟩
  have hpartner : loopOfTwo.loopPartner? 3 = some 2 := by decide
  have hmem : ∀ s, s ∈ [2, 3] ↔ s ∈ [3, 2] := by
    intro s
    simp only [List.mem_cons, List.not_mem_nil, or_false]
    exact or_comm
  have hcandidates : ∀ s, s ∈ [2, 3, 4] ↔
      s ∈ (ofAutomaton Grammar.empty Automaton.oneThenMany).2.candidates := by
    intro s
    have hstates : (ofAutomaton Grammar.empty Automaton.oneThenMany).2.states = [0, 1, 2, 3, 4] := by
      decide +kernel
    rw [mem_candidates_iff, hstates]
    simp only [List.mem_cons, List.not_mem_nil, or_false, start, final]
    omega
  refine ⟨hsimple, hpartner, fun w => ?_, by decide +kernel, by decide +kernel,
    horders loopOfTwo [2, 3] [3, 2] hmem (by decide) (by decide), Automaton.made_oneThenMany,
    hautomaton Grammar.empty _ Automaton.made_oneThenMany [2, 3, 4] hcandidates⟩
  obtain ⟨heliminate, hfold⟩ := hsteps loopOfTwo hsimple 3 (by decide) (by decide) w
  exact ⟨heliminate, hfold 2 hpartner⟩

end Graph

end RuleGrammar
