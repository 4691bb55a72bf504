import RuleGrammar.Proofs.Expansion
import RuleGrammar.Proofs.Numbering
import RuleGrammar.Proofs.Rereading
import RuleGrammar.Proofs.Revision.Amendment

/-!
# Grammars stay settled

A session begins with the empty grammar or with one that is read from a text.  It goes on with revisions,
with automata, which put their symbols into the tables and give a tree, and with such trees as new rules.
In every session the grammar stays settled: rules and their symbols are in the tables, there is one place
for a rule to each nonterminal, and every opened name is known as one.

* `mentions_rename`, `lt_size_of_mem_mentions`: the references of trees.
* `knowsOpened_of_build`: the opened names of a text are known.
* `toRegex_spec`: what an automaton leaves as it is.
* `Revision`: the revisions, and the nonterminals for which each is made.
* `Session.Step`, `Session.Reached`: sessions.
* `Session.Sound`, `Sound.step`, `Reached.sound`: what holds in every session, step by step.
* `Session.settled_in_every_session`: all of it, and what a further revision leaves as it is.
-/

namespace RuleGrammar

/-! ### References of trees -/

namespace Tree

theorem mentions_rename {α β : Type} (terminal semantic nonterminal : α → β) (t : Tree α) :
    (t.rename terminal semantic nonterminal).mentions =
      t.mentions.map fun mention => (nonterminal mention.1, mention.2) := by
  induction t with
  | seq l r ihl ihr | alt l r ihl ihr | iter l r ihl ihr =>
      simp only [rename, mentions, ihl, ihr, List.map_append]
  | _ => rfl

end Tree

open RuleGrammar.Tree

namespace Graph

theorem composable_closed : Composable Tree.Closed where
  empty nt h := by cases h
  join {l r} hl hr := by
    unfold join
    split
    · exact hr
    · split
      · exact hl
      · exact Closed.pair rfl hl hr
  alt hl hr := Closed.pair rfl hl hr
  iter hl hr := Closed.pair rfl hl hr

end Graph

namespace Grammar

open SymbolTable

variable {g g' : Grammar} {nt : Nat} {rule t : Rule}

theorem lt_size_of_mem_mentions {opened : Bool} (ht : g.Covers t) (h : (nt, opened) ∈ t.mentions) :
    nt < g.nonterminals.size := by
  induction t with
  | reference m mark =>
      rw [show nt = m from congrArg Prod.fst (List.mem_singleton.1 h)]
      exact ht
  | seq l r ihl ihr | alt l r ihl ihr | iter l r ihl ihr =>
      rcases List.mem_append.1 h with h | h
      · exact ihl ht.1 h
      · exact ihr ht.2 h
  | _ => cases h

/-! ### Opened names -/

/-- What the rules of a grammar open is known in any grammar with the same opened names in which the
nonterminals keep their numbers. -/
theorem knowsOpened_of_allows (hg : g.WellFormed)
    (hopened : ∀ {nt rule}, g.rule? nt = some rule → g.KnowsOpened rule)
    (hnonterminals : g.nonterminals.Extends g'.nonterminals) (hmacros : g'.macros = g.macros)
    (ht : g.Allows t) : g'.KnowsOpened t := by
  intro id hid
  obtain ⟨nt, rule, hrule, hmention⟩ := ht id hid
  obtain ⟨name, hname⟩ := exists_name?_of_lt (lt_size_of_mem_mentions (hg.covered hrule) hmention)
  have hknown : g.nonterminalName id ∈ g.macros.names := hopened hrule id hmention
  rw [nonterminalName, hname] at hknown
  rw [nonterminalName, hnonterminals id name hname, hmacros]
  exact hknown

/-- The names that a text opens are known as such. -/
theorem knowsOpened_of_build {text : String} (h : build text = .ok g) (hrule : g.rule? nt = some rule) :
    g.KnowsOpened rule := by
  obtain ⟨document, _, hdocument⟩ := build_eq_ok_iff.1 h
  have hholds := holds_of_ofDocument hdocument
  have hmacros : g.macros.names.toList = document.openings.eraseDups :=
    (describes_of_ofDocument hdocument).macros
  -- the rule is the body of a record, so its opened names are among those of the document
  obtain ⟨record, hrecord, hname⟩ := hholds.record hrule
  obtain ⟨m, other, hother, hstored, hnamed⟩ := hholds.rule record hrecord
  have hsame : m = nt := name?_injective hother hname
  rw [hsame, hrule] at hstored
  cases hstored
  intro id hid
  have hbody : (g.nonterminalName id, true) ∈ record.body.mentions := by
    rw [← hnamed, named, mentions_rename]
    exact List.mem_map.2 ⟨(id, true), hid, rfl⟩
  have hopening : g.nonterminalName id ∈ document.openings := by
    refine List.mem_flatMap.2 ⟨record, hrecord, List.mem_map.2 ⟨(g.nonterminalName id, true), ?_, rfl⟩⟩
    exact List.mem_filter.2 ⟨hbody, rfl⟩
  rw [← Array.mem_toList_iff, hmacros]
  exact List.mem_eraseDups.2 hopening

end Grammar

open Grammar

/-! ### Automata -/

namespace Graph

/-- A symbol changes no rule and no opened name, and its tree opens nothing. -/
theorem internSymbol_spec (g : Grammar) (meaning : Automaton.Symbol) :
    (internSymbol g meaning).1.macros = g.macros ∧
      (∀ m, (internSymbol g meaning).1.rule? m = g.rule? m) ∧ (internSymbol g meaning).2.Closed := by
  cases meaning with
  | empty => exact ⟨rfl, fun _ => rfl, composable_closed.empty⟩
  | terminal name => exact ⟨rfl, fun _ => rfl, fun nt h => by cases h⟩
  | nonterminal name =>
      refine ⟨rfl, rule?_addNonterminal g name, fun nt h => ?_⟩
      simp [internSymbol, mentions] at h

theorem transitionArcs_spec (transitions : List (Nat × String × Nat)) : ∀ g : Grammar,
    (transitionArcs g transitions).1.macros = g.macros ∧
      (∀ m, (transitionArcs g transitions).1.rule? m = g.rule? m) ∧
      ∀ arc ∈ (transitionArcs g transitions).2, arc.tree.Closed := by
  induction transitions with
  | nil =>
      intro g
      exact ⟨rfl, fun _ => rfl, fun arc harc => by cases harc⟩
  | cons transition rest ih =>
      intro g
      obtain ⟨source, symbol, target⟩ := transition
      obtain ⟨hmacros, hrules, hclosed⟩ :=
        internSymbol_spec g ((Automaton.classify symbol).getD .empty)
      obtain ⟨hmacrosRest, hrulesRest, hclosedRest⟩ :=
        ih (internSymbol g ((Automaton.classify symbol).getD .empty)).1
      refine ⟨hmacrosRest.trans hmacros, fun m => (hrulesRest m).trans (hrules m), fun arc harc => ?_⟩
      rcases List.mem_cons.1 harc with rfl | harc
      · exact hclosed
      · exact hclosedRest arc harc

end Graph

/-- An automaton changes no rule and no opened name, the numbers stay, and its tree opens nothing. -/
theorem Automaton.toRegex_spec {g : Grammar} (hg : g.Orderly) (a : Automaton) :
    g.Grows (toRegex g a).grammar ∧ (toRegex g a).grammar.macros = g.macros ∧
      (∀ m, (toRegex g a).grammar.rule? m = g.rule? m) ∧ (toRegex g a).result.Closed := by
  obtain ⟨_, hgrows, _⟩ := Graph.orderly_transitionArcs a.transitions hg
  obtain ⟨hmacros, hrules, hclosed⟩ := Graph.transitionArcs_spec a.transitions g
  refine ⟨hgrows, hmacros, hrules, ?_⟩
  refine Graph.spanningTree_of_forall_trees Graph.composable_closed fun arc harc => ?_
  rcases Graph.mem_arcs_ofAutomaton.1 harc with rfl | ⟨state, _, rfl⟩ | harc
  · exact Graph.composable_closed.empty
  · exact Graph.composable_closed.empty
  · exact hclosed arc harc

/-! ### Revisions -/

inductive Revision where
  | eliminate (nt : Nat)
  | eliminateAll
  | factor (nt : Nat)
  | factorAll
  | removeUseless
deriving DecidableEq, Repr

namespace Revision

def apply (g : Grammar) : Revision → Grammar
  | .eliminate nt => (LeftRecursion.eliminate g nt).grammar
  | .eliminateAll => (LeftRecursion.eliminateAll g).grammar
  | .factor nt => (Factoring.factor g nt).grammar
  | .factorAll => (Factoring.factorAll g).grammar
  | .removeUseless => (Useless.removeUseless g).grammar

/-- The nonterminals for which a revision is made: the one that it is given, all of the table, or those
that it finds to be useless. -/
def Revises (g : Grammar) : Revision → Nat → Prop
  | .eliminate nt, m | .factor nt, m => m = nt
  | .eliminateAll, m | .factorAll, m => m ∈ g.nonterminals.ids
  | .removeUseless, m => m ∈ (Useless.removeUseless g).result

theorem orderly {g : Grammar} (hg : g.Orderly) (r : Revision) : (r.apply g).Orderly := by
  cases r with
  | eliminate nt => exact LeftRecursion.orderly_eliminate hg nt
  | eliminateAll => exact LeftRecursion.orderly_eliminateAll hg
  | factor nt => exact (Factoring.keeps_factorWithin _ nt hg).1
  | factorAll => exact (Factoring.keeps_factorAll hg).1
  | removeUseless => exact (Useless.thins_removeUseless g).orderly hg

theorem amended {g : Grammar} (hg : g.Orderly) (r : Revision) :
    g.Amended (r.Revises g) (r.apply g) := by
  cases r with
  | eliminate nt => exact LeftRecursion.amended_eliminate hg nt
  | eliminateAll => exact LeftRecursion.amended_eliminateAll hg
  | factor nt => exact Factoring.amended_factor hg nt
  | factorAll => exact Factoring.amended_factorAll hg
  | removeUseless => exact Useless.amended_removeUseless g

end Revision

/-! ### Sessions -/

/-- A grammar that is worked on, and the trees that automata have given so far. -/
structure Session where
  grammar : Grammar
  -- the trees, the last one first
  trees : List Rule

namespace Session

variable {s s' : Session}

inductive Step : Session → Session → Prop where
  | revise (s : Session) (r : Revision) : Step s ⟨r.apply s.grammar, s.trees⟩
  | automaton (s : Session) (a : Automaton) :
      Step s ⟨(Automaton.toRegex s.grammar a).grammar, (Automaton.toRegex s.grammar a).result :: s.trees⟩
  | setRule (s : Session) {nt : Nat} {t : Rule} (hnt : nt < s.grammar.nonterminals.size)
      (ht : t ∈ s.trees) : Step s ⟨s.grammar.setRule nt t, s.trees⟩

/-- The sessions that come up. -/
inductive Reached : Session → Prop where
  | empty : Reached ⟨Grammar.empty, []⟩
  | build {text : String} {g : Grammar} (h : build text = .ok g) : Reached ⟨g, []⟩
  | step {s s' : Session} (h : Reached s) (hstep : Step s s') : Reached s'

/-- What holds in every session. -/
structure Sound (s : Session) : Prop where
  orderly : s.grammar.Orderly
  opened : ∀ {nt : Nat} {rule : Rule}, s.grammar.rule? nt = some rule → s.grammar.KnowsOpened rule
  covered : ∀ t ∈ s.trees, s.grammar.Covers t
  closed : ∀ t ∈ s.trees, t.Closed

theorem Sound.settled (h : s.Sound) : s.grammar.Settled :=
  ⟨h.orderly.toWellFormed, h.orderly.places, h.opened⟩

/-- **Each step of a session keeps it sound.** -/
theorem Sound.step (h : s.Sound) (hstep : s.Step s') : s'.Sound := by
  have hknows : ∀ {g' : Grammar} {t : Rule}, s.grammar.nonterminals.Extends g'.nonterminals →
      g'.macros = s.grammar.macros → s.grammar.Allows t → g'.KnowsOpened t :=
    knowsOpened_of_allows h.orderly.toWellFormed h.opened
  cases hstep with
  | revise r =>
      have hamended := Revision.amended h.orderly r
      refine ⟨Revision.orderly h.orderly r, fun {nt rule} hrule => ?_, fun t ht => ?_, h.closed⟩
      · refine hknows hamended.nonterminals hamended.macros fun id hid => ?_
        exact hamended.opens id ⟨nt, rule, hrule, hid⟩
      · exact hamended.grows.covers (h.covered t ht)
  | automaton a =>
      obtain ⟨horderly, hcovers⟩ := orderly_toRegex h.orderly a
      obtain ⟨hgrows, hmacros, hrules, hclosed⟩ := Automaton.toRegex_spec h.orderly a
      refine ⟨horderly, fun {nt rule} hrule => ?_, fun t ht => ?_, fun t ht => ?_⟩
      · rw [hrules] at hrule
        exact hknows hgrows.nonterminals hmacros (allows_of_rule? hrule)
      · rcases List.mem_cons.1 ht with rfl | ht
        · exact hcovers
        · exact hgrows.covers (h.covered t ht)
      · rcases List.mem_cons.1 ht with rfl | ht
        · exact hclosed
        · exact h.closed t ht
  | @setRule nt t hnt ht =>
      refine ⟨h.orderly.setRule hnt (h.covered t ht), fun {m rule} hrule => ?_,
        fun u hu => (grows_setRule _ nt t).covers (h.covered u hu), h.closed⟩
      rw [rule?_setRule] at hrule
      split at hrule
      · cases hrule
        exact fun id hid => absurd hid (h.closed t ht id)
      · exact h.opened hrule

/-- Every session that comes up is sound. -/
theorem Reached.sound (h : s.Reached) : s.Sound := by
  induction h with
  | empty =>
      exact ⟨orderly_empty, fun hrule => (by cases hrule), fun t ht => (by cases ht),
        fun t ht => (by cases ht)⟩
  | build hbuild =>
      exact ⟨orderly_of_build hbuild, fun hrule => knowsOpened_of_build hbuild hrule,
        fun t ht => (by cases ht), fun t ht => (by cases ht)⟩
  | step _ hstep ih => exact ih.step hstep

/-- **In every session the grammar is settled.**  There is one place for a rule to each nonterminal, the
symbols of every rule are in their tables, and every opened name is known as one; each table is a
one-to-one correspondence between its names and the numbers below its size, and terminal zero is the empty
name.  A further revision leaves all tables as they are but for new nonterminals, whose names were not in
use, and changes no rules but those for which it is made and those of new nonterminals. -/
theorem settled_in_every_session (s : Session) (h : s.Reached) :
    s.grammar.Settled ∧
      (∀ table ∈ [s.grammar.terminals, s.grammar.nonterminals, s.grammar.semantics, s.grammar.macros],
        (∀ name i, table.id? name = some i ↔ table.name? i = some name) ∧
          ∀ i, i < table.size ↔ ∃ name, table.name? i = some name) ∧
      s.grammar.terminals.name? 0 = some "" ∧
      ∀ r : Revision, s.grammar.Amended (r.Revises s.grammar) (r.apply s.grammar) := by
  refine ⟨h.sound.settled, fun table _ => ⟨fun name i => SymbolTable.id?_eq_some_iff, fun i => ?_⟩,
    s.grammar.emptyName, fun r => Revision.amended h.sound.orderly r⟩
  constructor
  · exact SymbolTable.exists_name?_of_lt
  · rintro ⟨name, hname⟩
    exact SymbolTable.lt_size_of_name? hname

/-- Left recursion, opened names, alternatives that share their first element, and a useless rule. -/
def openedText : String :=
  "S : S , 'p' , %B ; %B , 'x' ; %B , 'y' .\nB : 'b' .\nL : L .\nEOGram!"

def opened : Grammar where
  terminals := ⟨#["", "p", "x", "y", "b"], by decide⟩
  nonterminals := ⟨#["S", "B", "L"], by decide⟩
  semantics := SymbolTable.empty
  macros := ⟨#["B"], by decide⟩
  rules := #[
    some (.alt (.alt (.seq (.seq (.reference 0 false) (.terminal 1)) (.reference 1 true))
      (.seq (.reference 1 true) (.terminal 2))) (.seq (.reference 1 true) (.terminal 3))),
    some (.terminal 4),
    some (.reference 2 false)]
  emptyName := by decide

def revised : Grammar :=
  Revision.apply (Revision.apply (Revision.apply opened (.eliminate 0)) .factorAll) .removeUseless

/-- The session in which the name that has lost its rule gets the tree of an automaton. -/
def worked : Session :=
  let regex := Automaton.toRegex revised Automaton.oneThenMany
  ⟨regex.grammar.setRule 2 regex.result, [regex.result]⟩

theorem reached_worked : worked.Reached := by
  have hbuild : build openedText = .ok opened := build_eq_ok_of_toOption (by decide +kernel)
  have hstraight := (Reached.build hbuild).step (.revise _ (.eliminate 0))
  have hfactored := hstraight.step (.revise _ .factorAll)
  have hrevised := hfactored.step (.revise _ .removeUseless)
  have hregex := hrevised.step (.automaton _ Automaton.oneThenMany)
  exact hregex.step (.setRule _ (by decide +kernel) (List.mem_cons_self ..))

/-- The session ends with a settled grammar, in which two nonterminals are new and the opened name is
still opened. -/
theorem settled_in_every_session_worked : worked.Reached ∧ worked.grammar.Settled ∧
    revised.rule? 2 = none ∧
    worked.grammar.nonterminals.names = #["S", "B", "L", "S_rec", "S_fac"] ∧
    worked.grammar.macros.names = #["B"] ∧
    worked.grammar.rule? 0 = some (.seq (.reference 1 true) (.reference 4 false)) ∧
    worked.grammar.Amended (· = 0) (Factoring.factor worked.grammar 0).grammar := by
  obtain ⟨hsettled, _, _, hamended⟩ := settled_in_every_session worked reached_worked
  exact ⟨reached_worked, hsettled, by decide +kernel, by decide +kernel, by decide +kernel,
    by decide +kernel, hamended (.factor 0)⟩

end Session

end RuleGrammar
