import RuleGrammar.Proofs.Automaton.Regex
import RuleGrammar.Proofs.Revision.Factoring
import RuleGrammar.Proofs.Revision.LeftRecursion
import RuleGrammar.Proofs.Revision.Useless
import RuleGrammar.Proofs.RoundTrip
import RuleGrammar.Transform

/-!
# Every grammar that comes up can be read back

Texts, transforms and automata only put names into the tables of a grammar that the reader can read, and
only symbols of the tables into its rules.  So every grammar that comes up is written as a document that
is read back, and by name the rules are the same but for the nesting of chains.

* `Grammar.orderly_toRegex`: the symbols of an automaton in the tables of a grammar.
* `Grammar.Obtained`: the grammars that come up; `Obtained.orderly`.
* `Grammar.reading_undoes_writing`: what is read from the document of a grammar.
-/

namespace RuleGrammar

/-! ### Symbols of automata -/

namespace Automaton

/-- What the meaning of a written symbol puts into a table can be read back. -/
def Symbol.Legible : Symbol → Prop
  | .empty => True
  | .terminal name => ¬ '\n' ∈ name.toList
  | .nonterminal name => Token.IsIdentifier name

theorem legible_of_classify {symbol : String} {meaning : Symbol} (h : classify symbol = some meaning) :
    meaning.Legible := by
  unfold classify at h
  split at h
  · cases h
    trivial
  · split at h
    · next token hlex =>
        have hfine : Token.Fine token := by
          refine Token.fine_of_mem_lexFrom 0 symbol.toList token ?_
          rw [show Token.lexFrom 0 symbol.toList = ⟨[token], none⟩ from hlex]
          exact List.mem_singleton.2 rfl
        split at h
        · split at h
          · next hkind =>
              dsimp only at h
              split at h
              · cases h
                trivial
              · cases h
                exact hfine.2 hkind
          · next hkind =>
              cases h
              exact hfine.1 hkind
          · cases h
        · cases h
    · cases h

end Automaton

namespace Grammar

variable {g : Grammar}

theorem Orderly.addTerminal (hg : g.Orderly) {name : String} (hname : ¬ '\n' ∈ name.toList) :
    (g.addTerminal name).Orderly where
  toWellFormed := hg.toWellFormed.of_grows (grows_addTerminal g name) fun h => h
  places := hg.places
  readable := ⟨hg.readable.nonterminals, hg.readable.semantics,
    forall_mem_insert hg.readable.terminals hname⟩

theorem Orderly.addNonterminal (hg : g.Orderly) {name : String} (hname : Token.IsIdentifier name) :
    (g.addNonterminal name).Orderly where
  toWellFormed := by
    refine hg.toWellFormed.of_grows (grows_addNonterminal g name) fun {m rule} hrule => ?_
    rw [← rule?_addNonterminal g name]
    exact hrule
  places := size_rules_addNonterminal hg.places name
  readable := hg.readable.addNonterminal hname

end Grammar

namespace Graph

open Grammar

/-- A symbol that can be read back enters an orderly grammar, which then covers its tree. -/
theorem orderly_internSymbol {g : Grammar} (hg : g.Orderly) {meaning : Automaton.Symbol}
    (h : meaning.Legible) : (internSymbol g meaning).1.Orderly ∧
      g.Grows (internSymbol g meaning).1 ∧ (internSymbol g meaning).1.Covers (internSymbol g meaning).2 := by
  cases meaning with
  | empty => exact ⟨hg, Grows.refl g, covers_epsilon g⟩
  | terminal name =>
      exact ⟨hg.addTerminal h, grows_addTerminal g name, g.terminals.slot_lt_size_insert name⟩
  | nonterminal name =>
      exact ⟨hg.addNonterminal h, grows_addNonterminal g name, g.nonterminals.slot_lt_size_insert name⟩

theorem orderly_transitionArcs (transitions : List (Nat × String × Nat)) :
    ∀ {g : Grammar}, g.Orderly → (transitionArcs g transitions).1.Orderly ∧
      g.Grows (transitionArcs g transitions).1 ∧
      ∀ arc ∈ (transitionArcs g transitions).2, (transitionArcs g transitions).1.Covers arc.tree := by
  induction transitions with
  | nil =>
      intro g hg
      exact ⟨hg, Grows.refl g, fun arc harc => by cases harc⟩
  | cons transition rest ih =>
      intro g hg
      obtain ⟨source, symbol, target⟩ := transition
      have hlegible : ((Automaton.classify symbol).getD .empty).Legible := by
        cases hmeaning : Automaton.classify symbol with
        | none => trivial
        | some meaning => exact Automaton.legible_of_classify hmeaning
      obtain ⟨hfirst, hgrows, hcovers⟩ := orderly_internSymbol hg hlegible
      obtain ⟨hrest, hgrowsRest, hcoversRest⟩ := ih hfirst
      refine ⟨hrest, hgrows.trans hgrowsRest, fun arc harc => ?_⟩
      rcases List.mem_cons.1 harc with rfl | harc
      · exact hgrowsRest.covers hcovers
      · exact hcoversRest arc harc

end Graph

namespace Grammar

variable {g : Grammar}

theorem composable_covers (g : Grammar) : Graph.Composable g.Covers where
  empty := covers_epsilon g
  join hl hr := covers_join hl hr
  alt hl hr := ⟨hl, hr⟩
  iter hl hr := ⟨hl, hr⟩

/-- **An automaton puts names that can be read back into the tables, and its tree is covered.** -/
theorem orderly_toRegex (hg : g.Orderly) (a : Automaton) :
    (Automaton.toRegex g a).grammar.Orderly ∧
      (Automaton.toRegex g a).grammar.Covers (Automaton.toRegex g a).result := by
  obtain ⟨horderly, _, hcovers⟩ := Graph.orderly_transitionArcs a.transitions hg
  refine ⟨horderly, Graph.spanningTree_of_forall_trees (composable_covers _) ?_⟩
  intro arc harc
  rcases Graph.mem_arcs_ofAutomaton.1 harc with rfl | ⟨state, _, rfl⟩ | harc
  · exact covers_epsilon _
  · exact covers_epsilon _
  · exact hcovers arc harc

/-! ### Grammars that come up -/

/-- The grammars that come up: the empty one, those that are read, and what becomes of them by
revisions and by the symbols and trees of automata. -/
inductive Obtained : Grammar → Prop where
  | empty : Obtained Grammar.empty
  | build {text : String} {g : Grammar} (h : build text = .ok g) : Obtained g
  | transform {g : Grammar} (h : Obtained g) (t : Transform) : Obtained (t.apply g).grammar
  | eliminate {g : Grammar} (h : Obtained g) (nt : Nat) :
      Obtained (LeftRecursion.eliminate g nt).grammar
  | factor {g : Grammar} (h : Obtained g) (nt : Nat) : Obtained (Factoring.factor g nt).grammar
  | automaton {g : Grammar} (h : Obtained g) (a : Automaton) :
      Obtained (Automaton.toRegex g a).grammar
  | regex {g : Grammar} (h : Obtained g) (a : Automaton) {name : String}
      (hname : Token.IsIdentifier name) :
      Obtained (((Automaton.toRegex g a).grammar.addNonterminal name).setRule
        ((Automaton.toRegex g a).grammar.nonterminals.slot name) (Automaton.toRegex g a).result)

theorem orderly_empty : Grammar.empty.Orderly where
  toWellFormed := by decide
  places := rfl
  readable := readable_empty

/-- **Every grammar that comes up is orderly.** -/
theorem Obtained.orderly (h : g.Obtained) : g.Orderly := by
  induction h with
  | empty => exact orderly_empty
  | build h => exact orderly_of_build h
  | @transform g _ t ih =>
      cases t with
      | leftRecursion => exact LeftRecursion.orderly_eliminateAll ih
      | factorize => exact (Factoring.keeps_factorAll ih).1
      | useless => exact (Useless.thins_removeUseless g).orderly ih
  | eliminate _ nt ih => exact LeftRecursion.orderly_eliminate ih nt
  | factor _ nt ih => exact (Factoring.keeps_factorWithin _ nt ih).1
  | automaton _ a ih => exact (orderly_toRegex ih a).1
  | regex _ a hname ih =>
      obtain ⟨horderly, hcovers⟩ := orderly_toRegex ih a
      exact (horderly.addNonterminal hname).setRule (SymbolTable.slot_lt_size_insert _ _)
        ((grows_addNonterminal _ _).covers hcovers)

/-- **Reading undoes writing.**  The grammars that come up are well-formed, and their names can be read
back.  The document of such a grammar is read; the same names own rules, by name each of them is what it
was with every chain nested to the left, and a start symbol with a rule has the same name. -/
theorem reading_undoes_writing :
    (∀ g : Grammar, g.Obtained → g.WellFormed ∧ g.Readable) ∧
      ∀ g : Grammar, g.WellFormed → g.Readable → ∃ g', build g.toText = .ok g' ∧
        (∀ name, g'.ruleOf? name = (g.ruleOf? name).map Tree.leftNested) ∧
        ∀ start rule, g.start? = some start → g.rule? start = some rule →
          ∃ start', g'.start? = some start' ∧
            g'.nonterminals.name? start' = g.nonterminals.name? start := by
  refine ⟨fun g h => ⟨h.orderly.toWellFormed, h.orderly.readable⟩, fun g hg hr => ?_⟩
  obtain ⟨g', hbuild, _, _, hrules, hstart⟩ := exists_build_toText hg hr
  refine ⟨g', hbuild, hrules, fun start rule hfirst hrule => ?_⟩
  obtain ⟨rfl, hpos⟩ := start?_eq_some_iff.1 hfirst
  have hname := hstart rule hrule
  have hpos' : 0 < g'.nonterminals.size := by
    obtain ⟨name, hzero⟩ := SymbolTable.exists_name?_of_lt hpos
    rw [hzero] at hname
    exact SymbolTable.lt_size_of_name? hname
  exact ⟨0, start?_eq_some_iff.2 ⟨rfl, hpos'⟩, hname⟩

/-- Chains nested to the right, iterations on both sides of an iteration, quotes and backslashes in
terminals, and a nonterminal with the name that begins the closing mark. -/
def awkward : Grammar where
  terminals := ⟨#["", "it's", "a\\b", "\"'"], by decide⟩
  nonterminals := ⟨#["EOGram", "rest"], by decide⟩
  semantics := ⟨#["act"], by decide⟩
  macros := ⟨#["rest"], by decide⟩
  rules := #[
    some (.seq (.terminal 1) (.seq (.iter (.iter (.terminal 2) (.terminal 3))
      (.iter (.semantic 0) (.terminal 0))) (.reference 1 true))),
    some (.alt (.terminal 2) (.alt (.seq (.reference 0 false) (.alt (.terminal 0) (.terminal 1)))
      (.terminal 3)))]
  emptyName := by decide

theorem readable_awkward : awkward.Readable :=
  ⟨by decide +kernel, by decide +kernel, by decide +kernel⟩

/-- The awkward grammar is read back with its chains nested to the left, and what an automaton makes of
the empty grammar can be read back. -/
theorem reading_undoes_writing_awkward :
    (∃ g', build awkward.toText = .ok g' ∧
      g'.ruleOf? "EOGram" = some (.seq (.seq (.terminal "it's")
        (.iter (.iter (.terminal "a\\b") (.terminal "\"'")) (.iter (.semantic "act") (.terminal ""))))
        (.reference "rest" true)) ∧
      g'.ruleOf? "rest" = some (.alt (.alt (.terminal "a\\b")
        (.seq (.reference "EOGram" false) (.alt (.terminal "") (.terminal "it's"))))
        (.terminal "\"'")) ∧
      g'.ruleOf? "act" = none ∧
      ∃ start, g'.start? = some start ∧ g'.nonterminals.name? start = some "EOGram") ∧
    (Automaton.toRegex Grammar.empty Automaton.oneThenMany).grammar.Readable := by
  obtain ⟨g', hbuild, hrules, hstart⟩ := reading_undoes_writing.2 awkward (by decide +kernel)
    readable_awkward
  have hobtained : (Automaton.toRegex Grammar.empty Automaton.oneThenMany).grammar.Obtained :=
    .automaton .empty _
  refine ⟨⟨g', hbuild, ?_, ?_, ?_, hstart 0 _ rfl rfl⟩, (reading_undoes_writing.1 _ hobtained).2⟩
  · rw [hrules]
    decide +kernel
  · rw [hrules]
    decide +kernel
  · rw [hrules]
    decide +kernel

end Grammar

end RuleGrammar
