import RuleGrammar.Proofs.Automaton.Reduction
import RuleGrammar.Proofs.Automaton.Walk
import RuleGrammar.Proofs.Recognition

/-!
# The tree of an automaton

The graph of an automaton reads the words that are put together from the symbols of its walks, and its
reduction keeps them.  Hence the tree of an automaton derives exactly the words of its accepted lists
of symbols; an automaton that accepts none gets the tree of the empty word.

* `Graph.derives_internSymbol`: the tree of a symbol derives what the symbol reads.
* `Graph.ArcOf`: the arc of a transition.
* `Graph.reads_ofAutomaton_iff`: the graph of an automaton reads what the automaton reads.
* `Grammar.emptied`: a grammar in which every nonterminal derives the empty word.
-/

namespace RuleGrammar

open Automaton (classify SymbolReads SymbolsRead)

/-! ### Symbols in a grammar -/

/-- A terminal that stands for a symbol has a name. -/
theorem Automaton.ne_empty_of_classify {symbol name : String}
    (h : classify symbol = some (.terminal name)) : name ≠ "" := by
  unfold classify at h
  split at h
  · cases h
  · split at h
    · split at h
      · split at h
        · dsimp only at h
          split at h
          · cases h
          · next hne =>
              cases h
              exact hne
        · cases h
        · cases h
      · cases h
    · cases h

namespace Graph

variable {K : Grammar} {u w : Word}

theorem shifted_ne_start (state : Nat) : shifted state ≠ start := by
  unfold shifted start
  omega

theorem shifted_ne_final (state : Nat) : shifted state ≠ final := by
  unfold shifted final
  omega

/-- Only the empty name has terminal number zero. -/
theorem ne_zero_of_terminal_name {t : Nat} {name : String} (ht : K.terminals.name? t = some name)
    (hname : name ≠ "") : t ≠ 0 := by
  rintro rfl
  rw [K.emptyName] at ht
  cases ht
  exact hname rfl

/-- What a symbol contributes to a word: nothing if it is empty, otherwise what it reads. -/
def Contributes (K : Grammar) (symbol : String) (u : Word) : Prop :=
  (classify symbol = some .empty ∧ u = []) ∨ SymbolReads K symbol u

/-- The tree of a symbol derives what the symbol contributes. -/
theorem derives_internSymbol {g : Grammar} {symbol : String} {meaning : Automaton.Symbol}
    (hmeaning : classify symbol = some meaning)
    (hterminals : (internSymbol g meaning).1.terminals.Extends K.terminals)
    (hnonterminals : (internSymbol g meaning).1.nonterminals.Extends K.nonterminals) :
    Derives K (internSymbol g meaning).2 u ↔ Contributes K symbol u := by
  unfold Contributes SymbolReads
  rw [hmeaning]
  cases meaning with
  | empty =>
      show Derives K Tree.epsilon u ↔ _
      rw [derives_epsilon_iff]
      simp
  | terminal name =>
      have hslot : K.terminals.name? (g.terminals.slot name) = some name :=
        hterminals _ _ (g.terminals.name?_insert_slot name)
      have hne := ne_zero_of_terminal_name hslot (Automaton.ne_empty_of_classify hmeaning)
      show Derives K (.terminal (g.terminals.slot name)) u ↔ _
      rw [derives_terminal_iff hne]
      simp [SymbolTable.id?_eq_some_iff.2 hslot]
  | nonterminal name =>
      have hslot : K.nonterminals.name? (g.nonterminals.slot name) = some name :=
        hnonterminals _ _ (g.nonterminals.name?_insert_slot name)
      show Derives K (.reference (g.nonterminals.slot name) false) u ↔ _
      simp [SymbolTable.id?_eq_some_iff.2 hslot]

theorem extends_internSymbol (g : Grammar) (meaning : Automaton.Symbol) :
    g.terminals.Extends (internSymbol g meaning).1.terminals ∧
      g.nonterminals.Extends (internSymbol g meaning).1.nonterminals := by
  cases meaning with
  | empty => exact ⟨SymbolTable.Extends.refl _, SymbolTable.Extends.refl _⟩
  | terminal name => exact ⟨g.terminals.extends_insert name, SymbolTable.Extends.refl _⟩
  | nonterminal name => exact ⟨SymbolTable.Extends.refl _, g.nonterminals.extends_insert name⟩

theorem extends_transitionArcs (transitions : List (Nat × String × Nat)) :
    ∀ g : Grammar, g.terminals.Extends (transitionArcs g transitions).1.terminals ∧
      g.nonterminals.Extends (transitionArcs g transitions).1.nonterminals := by
  induction transitions with
  | nil => exact fun g => ⟨SymbolTable.Extends.refl _, SymbolTable.Extends.refl _⟩
  | cons transition rest ih =>
      intro g
      obtain ⟨source, symbol, target⟩ := transition
      have hfirst := extends_internSymbol g ((classify symbol).getD .empty)
      have hrest := ih (internSymbol g ((classify symbol).getD .empty)).1
      exact ⟨hfirst.1.trans hrest.1, hfirst.2.trans hrest.2⟩

/-! ### Arcs of transitions -/

/-- The arc of a transition joins the shifted states and derives what the symbol contributes. -/
structure ArcOf (K : Grammar) (transition : Nat × String × Nat) (arc : Arc) : Prop where
  source_eq : arc.source = shifted transition.1
  target_eq : arc.target = shifted transition.2.2
  derives_iff : ∀ u, Derives K arc.tree u ↔ Contributes K transition.2.1 u

theorem forall₂_transitionArcs (transitions : List (Nat × String × Nat)) :
    ∀ g : Grammar, (∀ tr ∈ transitions, ∃ meaning, classify tr.2.1 = some meaning) →
      (transitionArcs g transitions).1.terminals.Extends K.terminals →
      (transitionArcs g transitions).1.nonterminals.Extends K.nonterminals →
      List.Forall₂ (ArcOf K) transitions (transitionArcs g transitions).2 := by
  induction transitions with
  | nil => exact fun _ _ _ _ => List.Forall₂.nil
  | cons transition rest ih =>
      intro g hmeaning hterminals hnonterminals
      obtain ⟨source, symbol, target⟩ := transition
      obtain ⟨⟨meaning, hsymbol⟩, hmeaning⟩ := List.forall_mem_cons.1 hmeaning
      have hlater := extends_transitionArcs rest (internSymbol g ((classify symbol).getD .empty)).1
      refine List.Forall₂.cons ⟨rfl, rfl, fun u => ?_⟩ (ih _ hmeaning hterminals hnonterminals)
      have hget : (classify symbol).getD .empty = meaning := by rw [hsymbol]; rfl
      dsimp only
      rw [hget] at hlater ⊢
      refine derives_internSymbol hsymbol (hlater.1.trans ?_) (hlater.2.trans ?_)
      · rw [← hget]
        exact hterminals
      · rw [← hget]
        exact hnonterminals

theorem exists_arc_of_forall₂ {transitions : List (Nat × String × Nat)} {arcs : List Arc}
    (h : List.Forall₂ (ArcOf K) transitions arcs) {transition : Nat × String × Nat}
    (hmem : transition ∈ transitions) : ∃ arc ∈ arcs, ArcOf K transition arc := by
  induction h with
  | nil => cases hmem
  | cons hfirst _ ih =>
      rcases List.mem_cons.1 hmem with rfl | hmem
      · exact ⟨_, List.mem_cons_self, hfirst⟩
      · obtain ⟨arc, harc, hof⟩ := ih hmem
        exact ⟨arc, List.mem_cons_of_mem _ harc, hof⟩

theorem exists_transition_of_forall₂ {transitions : List (Nat × String × Nat)} {arcs : List Arc}
    (h : List.Forall₂ (ArcOf K) transitions arcs) {arc : Arc} (hmem : arc ∈ arcs) :
    ∃ transition ∈ transitions, ArcOf K transition arc := by
  induction h with
  | nil => cases hmem
  | cons hfirst _ ih =>
      rcases List.mem_cons.1 hmem with rfl | hmem
      · exact ⟨_, List.mem_cons_self, hfirst⟩
      · obtain ⟨transition, htransition, hof⟩ := ih hmem
        exact ⟨transition, List.mem_cons_of_mem _ htransition, hof⟩

/-! ### The graph of an automaton -/

/-- A grammar has the symbols that an automaton enters into another one. -/
structure Knows (K g : Grammar) (a : Automaton) : Prop where
  terminals : (ofAutomaton g a).1.terminals.Extends K.terminals
  nonterminals : (ofAutomaton g a).1.nonterminals.Extends K.nonterminals

variable {g : Grammar} {a : Automaton}

theorem forall₂_transitions (ha : a.Sound) (hK : Knows K g a) :
    List.Forall₂ (ArcOf K) a.transitions (transitionArcs g a.transitions).2 := by
  refine forall₂_transitionArcs a.transitions g ?_ hK.terminals hK.nonterminals
  rintro ⟨source, symbol, target⟩ htransition
  exact Automaton.meaning_of_mem_transitions ha htransition

/-- The arcs of the graph of an automaton. -/
theorem mem_arcs_ofAutomaton {arc : Arc} :
    arc ∈ (ofAutomaton g a).2.arcs ↔
      arc = ⟨start, shifted Automaton.start, Tree.epsilon⟩ ∨
        (∃ state ∈ a.finals, arc = ⟨shifted state, final, Tree.epsilon⟩) ∨
        arc ∈ (transitionArcs g a.transitions).2 := by
  show arc ∈ _ :: _ ++ _ ↔ _
  rw [List.cons_append, List.mem_cons, List.mem_append, List.mem_map]
  simp only [NumberSet.mem_def, eq_comm]

/-- A path from a state of the automaton to the final state follows a walk. -/
theorem exists_walk_of_path (ha : a.Sound) (hK : Knows K g a) {s : Nat}
    (h : Path K (ofAutomaton g a).2 (shifted s) final w) :
    ∃ t ∈ a.finals, ∃ symbols, a.Walk s symbols t ∧ SymbolsRead K symbols w := by
  generalize hs : shifted s = p at h
  generalize ht : final = q at h
  induction h generalizing s with
  | stay _ =>
      rw [← ht] at hs
      exact absurd hs (shifted_ne_final s)
  | @step arc q u v harc hu hv ih =>
      rcases mem_arcs_ofAutomaton.1 harc with rfl | ⟨state, hstate, rfl⟩ | harc
      · exact absurd hs (shifted_ne_start s)
      · have hsame : s = state := Nat.add_right_cancel hs
        subst hsame
        subst ht
        have hclosed : ∀ arc ∈ (ofAutomaton g a).2.arcs, arc.source ≠ final := by
          intro arc harc
          rcases mem_arcs_ofAutomaton.1 harc with rfl | ⟨state, _, rfl⟩ | harc
          · decide
          · exact shifted_ne_final state
          · obtain ⟨tr, _, hof⟩ := exists_transition_of_forall₂ (forall₂_transitions ha hK) harc
            rw [hof.source_eq]
            exact shifted_ne_final tr.1
        rw [derives_epsilon_iff.1 hu, (eq_nil_of_path_final hclosed hv).2]
        exact ⟨s, hstate, [], Automaton.Walk.stay s, SymbolsRead.nil⟩
      · obtain ⟨⟨source, symbol, target⟩, htransition, hof⟩ :=
          exists_transition_of_forall₂ (forall₂_transitions ha hK) harc
        have hsource : s = source := Nat.add_right_cancel (hs.trans hof.source_eq)
        subst hsource
        obtain ⟨t, ht, symbols, hwalk, hread⟩ := ih hof.target_eq.symm ht
        rcases (hof.derives_iff u).1 hu with ⟨hempty, rfl⟩ | hsymbol
        · exact ⟨t, ht, symbols, Automaton.Walk.silent ⟨symbol, hempty, htransition⟩ hwalk, hread⟩
        · exact ⟨t, ht, symbol :: symbols, Automaton.Walk.read htransition hwalk,
            SymbolsRead.cons hsymbol hread⟩

/-- A walk is followed by a path between the shifted states. -/
theorem path_of_walk (ha : a.Sound) (hK : Knows K g a) {s t : Nat} {symbols : List String}
    (h : a.Walk s symbols t) : ∀ w, SymbolsRead K symbols w →
      Path K (ofAutomaton g a).2 (shifted s) (shifted t) w := by
  have hstep : ∀ {source target : Nat} {symbol : String} {u : Word},
      (source, symbol, target) ∈ a.transitions → Contributes K symbol u →
      Path K (ofAutomaton g a).2 (shifted source) (shifted target) u := by
    intro source target symbol u htransition hu
    obtain ⟨arc, harc, hof⟩ := exists_arc_of_forall₂ (forall₂_transitions ha hK) htransition
    have hpath := Path.of_arc (mem_arcs_ofAutomaton.2 (Or.inr (Or.inr harc)))
      ((hof.derives_iff u).2 hu)
    rwa [hof.source_eq, hof.target_eq] at hpath
  induction h with
  | stay s =>
      intro w hw
      cases hw
      exact Path.stay _
  | silent hsilent _ ih =>
      intro w hw
      obtain ⟨symbol, hempty, htransition⟩ := hsilent
      exact (hstep htransition (Or.inl ⟨hempty, rfl⟩)).trans (ih w hw)
  | read htransition _ ih =>
      intro w hw
      cases hw with
      | cons hu hv => exact (hstep htransition (Or.inr hu)).trans (ih _ hv)

/-- **The graph of an automaton reads what the automaton reads.** -/
theorem reads_ofAutomaton_iff (ha : a.Sound) (hK : Knows K g a) :
    Reads K (ofAutomaton g a).2 w ↔ Automaton.Reads K a w := by
  unfold Automaton.Reads
  simp only [Automaton.accepts_iff_walk ha]
  constructor
  · intro h
    unfold Reads at h
    generalize hs : start = p at h
    generalize ht : final = q at h
    cases h with
    | stay _ => rw [← ht] at hs; cases hs
    | @step arc q u v harc hu hv =>
        rcases mem_arcs_ofAutomaton.1 harc with rfl | ⟨state, _, rfl⟩ | harc
        · subst ht
          obtain ⟨t, ht, symbols, hwalk, hread⟩ := exists_walk_of_path ha hK hv
          rw [derives_epsilon_iff.1 hu]
          exact ⟨symbols, ⟨t, ht, hwalk⟩, hread⟩
        · exact absurd hs.symm (shifted_ne_start state)
        · obtain ⟨tr, _, hof⟩ := exists_transition_of_forall₂ (forall₂_transitions ha hK) harc
          rw [hof.source_eq] at hs
          exact absurd hs.symm (shifted_ne_start tr.1)
  · rintro ⟨symbols, ⟨t, ht, hwalk⟩, hread⟩
    have hfirst : Path K (ofAutomaton g a).2 start (shifted Automaton.start) [] :=
      Path.of_arc (mem_arcs_ofAutomaton.2 (Or.inl rfl)) Derives.empty
    have hlast : Path K (ofAutomaton g a).2 (shifted t) final [] :=
      Path.of_arc (mem_arcs_ofAutomaton.2 (Or.inr (Or.inl ⟨t, ht, rfl⟩))) Derives.empty
    have hpath := (hfirst.trans (path_of_walk ha hK hwalk w hread)).trans hlast
    rwa [List.nil_append, List.append_nil] at hpath

theorem proper_ofAutomaton (ha : a.Sound) : (ofAutomaton g a).2.Proper := by
  have hK : Knows (ofAutomaton g a).1 g a := ⟨SymbolTable.Extends.refl _, SymbolTable.Extends.refl _⟩
  have hshifted : ∀ {state : Nat}, state < a.stateCount →
      shifted state ∈ (ofAutomaton g a).2.states := by
    intro state hstate
    exact List.mem_cons_of_mem _ (List.mem_cons_of_mem _
      (List.mem_map.2 ⟨state, List.mem_range.2 hstate, rfl⟩))
  have htransition : ∀ arc ∈ (transitionArcs g a.transitions).2, ∃ source target,
      source < a.stateCount ∧ target < a.stateCount ∧ arc.source = shifted source ∧
        arc.target = shifted target := by
    intro arc harc
    obtain ⟨⟨source, symbol, target⟩, htransition, hof⟩ :=
      exists_transition_of_forall₂ (forall₂_transitions ha hK) harc
    obtain ⟨i, _, htarget⟩ := (Automaton.mem_transitions_iff ha).1 htransition
    obtain ⟨hsource, _, htarget⟩ := ha.target_lt htarget
    exact ⟨source, target, hsource, htarget, hof.source_eq, hof.target_eq⟩
  refine ⟨?_, ?_, ?_, ?_⟩ <;> intro arc harc <;> rcases mem_arcs_ofAutomaton.1 harc with
    rfl | ⟨state, hstate, rfl⟩ | harc
  · exact List.mem_cons_self
  · exact hshifted (ha.final_lt hstate)
  · obtain ⟨source, _, hsource, _, heq, _⟩ := htransition arc harc
    rw [heq]
    exact hshifted hsource
  · exact hshifted ha.start_lt
  · exact List.mem_cons_of_mem _ List.mem_cons_self
  · obtain ⟨_, target, _, htarget, _, heq⟩ := htransition arc harc
    rw [heq]
    exact hshifted htarget
  · exact Nat.zero_ne_one
  · exact shifted_ne_final state
  · obtain ⟨source, _, _, _, heq, _⟩ := htransition arc harc
    rw [heq]
    exact shifted_ne_final source
  · exact shifted_ne_start Automaton.start
  · exact Nat.one_ne_zero
  · obtain ⟨_, target, _, _, _, heq⟩ := htransition arc harc
    rw [heq]
    exact shifted_ne_start target

end Graph

/-! ### Automata that accept something -/

namespace Automaton

/-- Some list of symbols that each read something is accepted. -/
def AcceptsSome (a : Automaton) : Prop :=
  ∃ symbols, a.accepts symbols = true ∧ ∀ symbol ∈ symbols, classify symbol ≠ some .empty

variable {a : Automaton} {K : Grammar}

theorem exists_transition_of_walk {s t : Nat} {symbols : List String} (h : a.Walk s symbols t) :
    ∀ symbol ∈ symbols, ∃ source target, (source, symbol, target) ∈ a.transitions := by
  induction h with
  | stay s => simp
  | silent _ _ ih => exact ih
  | read htransition _ ih => exact List.forall_mem_cons.2 ⟨⟨_, _, htransition⟩, ih⟩

theorem nonempty_of_symbolsRead {symbols : List String} {w : Word} (h : SymbolsRead K symbols w) :
    ∀ symbol ∈ symbols, classify symbol ≠ some .empty := by
  induction h with
  | nil => simp
  | cons hu _ ih =>
      refine List.forall_mem_cons.2 ⟨fun hempty => ?_, ih⟩
      unfold SymbolReads at hu
      rw [hempty] at hu
      exact hu

/-- If every symbol of an automaton contributes some word, then the automaton reads some word exactly
if it accepts something. -/
theorem exists_reads_iff (ha : a.Sound)
    (hlive : ∀ source symbol target, (source, symbol, target) ∈ a.transitions →
      ∃ u, Graph.Contributes K symbol u) :
    (∃ w, Reads K a w) ↔ a.AcceptsSome := by
  constructor
  · rintro ⟨w, symbols, haccepts, hread⟩
    exact ⟨symbols, haccepts, nonempty_of_symbolsRead hread⟩
  · rintro ⟨symbols, haccepts, hnonempty⟩
    obtain ⟨t, _, hwalk⟩ := (accepts_iff_walk ha symbols).1 haccepts
    have htransition := exists_transition_of_walk hwalk
    have hread : ∀ symbols : List String, (∀ symbol ∈ symbols, classify symbol ≠ some .empty) →
        (∀ symbol ∈ symbols, ∃ source target, (source, symbol, target) ∈ a.transitions) →
        ∃ w, SymbolsRead K symbols w := by
      intro symbols
      induction symbols with
      | nil => exact fun _ _ => ⟨[], SymbolsRead.nil⟩
      | cons symbol symbols ih =>
          intro hnonempty htransition
          obtain ⟨hsymbol, hnonempty⟩ := List.forall_mem_cons.1 hnonempty
          obtain ⟨⟨source, target, hmem⟩, htransition⟩ := List.forall_mem_cons.1 htransition
          obtain ⟨v, hv⟩ := ih hnonempty htransition
          obtain ⟨u, hu⟩ := hlive source symbol target hmem
          rcases hu with ⟨hempty, _⟩ | hu
          · exact absurd hempty hsymbol
          · exact ⟨u ++ v, SymbolsRead.cons hu hv⟩
    obtain ⟨w, hw⟩ := hread symbols hnonempty htransition
    exact ⟨w, symbols, haccepts, hw⟩

end Automaton

/-- The grammar in which every nonterminal of the table derives the empty word. -/
def Grammar.emptied (g : Grammar) : Grammar :=
  { g with rules := Array.replicate g.nonterminals.size (some Tree.epsilon) }

theorem Grammar.derives_emptied_reference (g : Grammar) {nt : Nat} (hnt : nt < g.nonterminals.size)
    (opened : Bool) : Derives g.emptied (.reference nt opened) [] := by
  refine Derives.reference hnt ?_ Derives.empty
  rw [rule?, emptied, Array.getElem?_replicate, if_pos hnt]
  rfl

namespace Graph

variable {g : Grammar} {a : Automaton}

theorem knows_emptied (g : Grammar) (a : Automaton) : Knows (ofAutomaton g a).1.emptied g a :=
  ⟨SymbolTable.Extends.refl _, SymbolTable.Extends.refl _⟩

theorem exists_derives_internSymbol {K : Grammar} (g : Grammar) (meaning : Automaton.Symbol)
    (hK : (internSymbol g meaning).1.nonterminals.Extends K.nonterminals) :
    ∃ u, Derives K.emptied (internSymbol g meaning).2 u := by
  cases meaning with
  | empty => exact ⟨[], Derives.empty⟩
  | terminal name =>
      show ∃ u, Derives K.emptied (.terminal (g.terminals.slot name)) u
      by_cases hzero : g.terminals.slot name = 0
      · rw [hzero]
        exact ⟨[], Derives.empty⟩
      · exact ⟨_, Derives.terminal hzero⟩
  | nonterminal name =>
      have hslot := hK _ _ (g.nonterminals.name?_insert_slot name)
      exact ⟨[], K.derives_emptied_reference (SymbolTable.lt_size_of_name? hslot) false⟩

theorem exists_derives_transitionArcs {K : Grammar} (transitions : List (Nat × String × Nat)) :
    ∀ g : Grammar, (transitionArcs g transitions).1.nonterminals.Extends K.nonterminals →
      ∀ arc ∈ (transitionArcs g transitions).2, ∃ u, Derives K.emptied arc.tree u := by
  induction transitions with
  | nil =>
      intro g _ arc harc
      cases harc
  | cons transition rest ih =>
      intro g hK arc harc
      obtain ⟨source, symbol, target⟩ := transition
      have hlater := extends_transitionArcs rest (internSymbol g ((classify symbol).getD .empty)).1
      rcases List.mem_cons.1 harc with rfl | harc
      · exact exists_derives_internSymbol g _ (hlater.2.trans hK)
      · exact ih _ hK arc harc

/-- Once every nonterminal derives the empty word, the tree of every arc derives some word. -/
theorem live_ofAutomaton (g : Grammar) (a : Automaton) :
    (ofAutomaton g a).2.Live (ofAutomaton g a).1.emptied := by
  intro arc harc
  rcases mem_arcs_ofAutomaton.1 harc with rfl | ⟨state, _, rfl⟩ | harc
  · exact ⟨[], Derives.empty⟩
  · exact ⟨[], Derives.empty⟩
  · exact exists_derives_transitionArcs a.transitions g (SymbolTable.Extends.refl _) arc harc

theorem exists_contributes_emptied (ha : a.Sound) (g : Grammar) (source : Nat) (symbol : String)
    (target : Nat) (h : (source, symbol, target) ∈ a.transitions) :
    ∃ u, Contributes (ofAutomaton g a).1.emptied symbol u := by
  obtain ⟨arc, harc, hof⟩ := exists_arc_of_forall₂ (forall₂_transitions ha (knows_emptied g a)) h
  obtain ⟨u, hu⟩ := live_ofAutomaton g a arc (mem_arcs_ofAutomaton.2 (Or.inr (Or.inr harc)))
  exact ⟨u, (hof.derives_iff u).1 hu⟩

/-- The graph of an automaton can be crossed exactly if the automaton accepts something. -/
theorem exists_reads_emptied_iff (ha : a.Sound) (g : Grammar) :
    (∃ u, Reads (ofAutomaton g a).1.emptied (ofAutomaton g a).2 u) ↔ a.AcceptsSome := by
  rw [← Automaton.exists_reads_iff ha (exists_contributes_emptied ha g)]
  simp only [reads_ofAutomaton_iff ha (knows_emptied g a)]

end Graph

namespace Automaton

/-- **State elimination keeps the language.**  For every automaton that can be made and every grammar
that its symbols enter: if the automaton accepts some list of symbols that read something, its tree is
recognized exactly on the words that are put together from words of the symbols of an accepted list;
otherwise its tree is that of the empty word. -/
theorem recognizes_toRegex_iff_reads (g : Grammar) {a : Automaton} (ha : a.Made) :
    (a.AcceptsSome → ∀ w, (toRegex g a).grammar.recognizes (toRegex g a).result w = true ↔
      Reads (toRegex g a).grammar a w) ∧
    (¬ a.AcceptsSome → (toRegex g a).result = Tree.epsilon) := by
  have hsound := sound_of_made ha
  have hknows : Graph.Knows (Graph.ofAutomaton g a).1 g a :=
    ⟨SymbolTable.Extends.refl _, SymbolTable.Extends.refl _⟩
  obtain ⟨hsome, hnone⟩ := Graph.spanningTree_reduce (Graph.proper_ofAutomaton hsound)
    (Graph.live_ofAutomaton g a)
  rw [Graph.exists_reads_emptied_iff hsound g] at hsome hnone
  refine ⟨fun haccepts w => ?_, hnone⟩
  rw [Grammar.recognizes_iff]
  exact (hsome haccepts (Graph.ofAutomaton g a).1 w).trans
    (Graph.reads_ofAutomaton_iff hsound hknows)

def oneThenMany : Automaton where
  stateCount := 3
  symbols := ((SymbolTable.empty.insert "'x'").insert "").insert "'y'"
  links := [((0, 0), .singleton 2), ((2, 1), .singleton 1), ((2, 2), .singleton 2)]

theorem made_oneThenMany : oneThenMany.Made := by
  have hx : Made _ := Made.link (b := { stateCount := 3
                                        symbols := SymbolTable.empty.insert "'x'"
                                        links := [((0, 0), .singleton 2)] })
    Made.first (show link? {} 0 2 "'x'" = _ by decide +kernel)
  have he : Made _ := Made.link (b := { stateCount := 3
                                        symbols := (SymbolTable.empty.insert "'x'").insert ""
                                        links := [((0, 0), .singleton 2), ((2, 1), .singleton 1)] })
    hx (show link? _ 2 1 "" = _ by decide +kernel)
  exact Made.link he (show link? _ 2 2 "'y'" = some oneThenMany by decide +kernel)

theorem recognizes_toRegex_oneThenMany :
    oneThenMany.Made ∧ oneThenMany.AcceptsSome ∧
      (toRegex Grammar.empty oneThenMany).grammar.recognizes
        (toRegex Grammar.empty oneThenMany).result [1, 2, 2] = true := by
  have haccepts : oneThenMany.accepts ["'x'", "'y'", "'y'"] = true := by decide +kernel
  have hsome : oneThenMany.AcceptsSome := ⟨_, haccepts, by decide +kernel⟩
  refine ⟨made_oneThenMany, hsome, ?_⟩
  refine ((recognizes_toRegex_iff_reads Grammar.empty made_oneThenMany).1 hsome _).2 ?_
  have hx : SymbolReads (toRegex Grammar.empty oneThenMany).grammar "'x'" [1] := by
    have hmeaning : classify "'x'" = some (.terminal "x") := by decide +kernel
    rw [SymbolReads, hmeaning]
    exact ⟨1, by decide +kernel, rfl⟩
  have hy : SymbolReads (toRegex Grammar.empty oneThenMany).grammar "'y'" [2] := by
    have hmeaning : classify "'y'" = some (.terminal "y") := by decide +kernel
    rw [SymbolReads, hmeaning]
    exact ⟨2, by decide +kernel, rfl⟩
  exact ⟨_, haccepts, SymbolsRead.cons hx (SymbolsRead.cons hy (SymbolsRead.cons hy SymbolsRead.nil))⟩

end Automaton

end RuleGrammar
