import Mathlib.Data.List.Induction
import RuleGrammar.Proofs.Building
import RuleGrammar.Proofs.Chains
import RuleGrammar.Revision

/-!
# Revisions that keep every language

A revision may add nonterminals and change rules, but the nonterminals that were there keep their names,
their numbers and their words.  Such revisions can follow each other in any number.

* `Orderly`: a well-formed grammar that can be written and read back.
* `addFresh_spec`: what a new nonterminal changes; `WellFormed.addFresh`, `Orderly.addFresh`, `Orderly.setRule`.
* `Keeps g g'`: all that a revision keeps; `Keeps.refl`, `Keeps.trans`.
* `reviseEach_induction`: what holds after a revision at each nonterminal of a list, step by step.
* `reviseEach_invariant`, `keeps_reviseEach`: what such revisions keep; `reviseEach_eq_self`: revisions
  that change nothing.
-/

namespace RuleGrammar.Grammar

open SymbolTable

variable {g g' g'' : Grammar} {nt : Nat} {rule : Rule}

/-- A well-formed grammar with one place for a rule to each nonterminal, whose names can be read back. -/
structure Orderly (g : Grammar) : Prop extends g.WellFormed where
  places : g.rules.size = g.nonterminals.size
  readable : g.Readable

theorem orderly_of_build {text : String} (h : build text = .ok g) : g.Orderly := by
  obtain ⟨hreadable, document, _, hholds⟩ := holds_of_build h
  exact ⟨hholds.toWellFormed, hholds.places, hreadable⟩

/-! ### Single changes -/

theorem Orderly.setRule (hg : g.Orderly) (hnt : nt < g.nonterminals.size) (hrule : g.Covers rule) :
    (g.setRule nt rule).Orderly where
  toWellFormed := hg.toWellFormed.setRule hnt hrule
  places := by rw [size_rules_setRule (by rw [hg.places]; exact hnt)]; exact hg.places
  readable := ⟨hg.readable.nonterminals, hg.readable.semantics, hg.readable.terminals⟩

theorem addFresh_eq (g : Grammar) (base : String) : g.addFresh base =
    (g.addNonterminal (g.nonterminals.freshName base), g.nonterminals.size) :=
  Prod.ext rfl (slot_of_not_mem (freshName_not_mem g.nonterminals base))

/-- A new nonterminal gets the next number, and no rule changes. -/
theorem addFresh_spec (g : Grammar) (base : String) :
    (g.addFresh base).2 = g.nonterminals.size ∧
      (g.addFresh base).1.nonterminals.size = g.nonterminals.size + 1 ∧
      (∀ m, (g.addFresh base).1.rule? m = g.rule? m) ∧ g.Grows (g.addFresh base).1 := by
  have hnew := freshName_not_mem g.nonterminals base
  exact ⟨slot_of_not_mem hnew, size_insert_of_not_mem hnew, rule?_addNonterminal g _,
    grows_addNonterminal g _⟩

theorem WellFormed.addFresh (hg : g.WellFormed) (base : String) : (g.addFresh base).1.WellFormed := by
  obtain ⟨_, _, hrules, hgrows⟩ := g.addFresh_spec base
  refine hg.of_grows hgrows fun {m rule} hrule => ?_
  rw [← hrules]
  exact hrule

theorem Orderly.addFresh (hg : g.Orderly) {base : String} (hbase : Token.IsIdentifier base) :
    (g.addFresh base).1.Orderly where
  toWellFormed := hg.toWellFormed.addFresh base
  places := size_rules_addNonterminal hg.places _
  readable := hg.readable.addNonterminal (isIdentifier_freshName _ hbase)

theorem Orderly.isIdentifier_name (hg : g.Orderly) (hnt : nt < g.nonterminals.size) :
    Token.IsIdentifier (g.nonterminalName nt) := by
  obtain ⟨name, hname⟩ := exists_name?_of_lt hnt
  rw [nonterminalName, hname]
  exact hg.readable.nonterminals name (mem_names_of_name? hname)

/-! ### What revisions keep -/

/-- The second grammar keeps the tables of the first one but for new nonterminals, and all nonterminals
of the first one keep their words. -/
structure Keeps (g g' : Grammar) : Prop where
  terminals : g'.terminals = g.terminals
  semantics : g'.semantics = g.semantics
  nonterminals : g.nonterminals.Extends g'.nonterminals
  language : ∀ {nt : Nat} {w : Word}, nt < g.nonterminals.size →
    (g'.Language nt w ↔ g.Language nt w)

theorem Keeps.refl (g : Grammar) : g.Keeps g := ⟨rfl, rfl, Extends.refl _, fun _ => Iff.rfl⟩

theorem Keeps.trans (h : g.Keeps g') (h' : g'.Keeps g'') : g.Keeps g'' where
  terminals := h'.terminals.trans h.terminals
  semantics := h'.semantics.trans h.semantics
  nonterminals := h.nonterminals.trans h'.nonterminals
  language hnt :=
    (h'.language (Nat.lt_of_lt_of_le hnt h.nonterminals.size_le)).trans (h.language hnt)

/-! ### A revision at each nonterminal of a list -/

theorem reviseEach_concat {α : Type} (revise : Grammar → Nat → Revised (List α)) (g : Grammar)
    (nts : List Nat) (nt : Nat) : reviseEach revise g (nts ++ [nt]) =
      (reviseEach revise g nts).andThen (fun g => revise g nt) (· ++ ·) := by
  rw [reviseEach, List.foldl_append]
  rfl

theorem mem_of_initial {done nts : List Nat} (h : done ++ [nt] <+: nts) : nt ∈ nts :=
  h.subset (List.mem_append_right done (List.mem_singleton_self nt))

theorem not_mem_of_initial {done nts : List Nat} (h : done ++ [nt] <+: nts) (hnodup : nts.Nodup) :
    ¬ nt ∈ done :=
  fun hdone => List.disjoint_of_nodup_append (h.sublist.nodup hnodup) hdone (List.mem_singleton_self nt)

/-- What holds at the beginning, and goes on to hold with each nonterminal of a list, holds at the
end. -/
theorem reviseEach_induction {α : Type} {revise : Grammar → Nat → Revised (List α)}
    {Q : List Nat → Revised (List α) → Prop} {nts : List Nat} (hnil : Q [] ⟨g, [], []⟩)
    (hstep : ∀ (done : List Nat) (nt : Nat) (r : Revised (List α)), done ++ [nt] <+: nts → Q done r →
      Q (done ++ [nt]) (r.andThen (fun g => revise g nt) (· ++ ·))) :
    Q nts (reviseEach revise g nts) := by
  induction nts using List.reverseRecOn with
  | nil => exact hnil
  | append_singleton nts nt ih =>
      rw [reviseEach_concat]
      refine hstep nts nt _ List.prefix_rfl (ih fun done m r hinitial => ?_)
      exact hstep done m r (hinitial.trans (List.prefix_append nts [nt]))

/-- Revisions that change nothing change nothing together. -/
theorem reviseEach_eq_self {α : Type} {revise : Grammar → Nat → Revised (List α)} {nts : List Nat}
    (h : ∀ nt ∈ nts, revise g nt = ⟨g, [], []⟩) : reviseEach revise g nts = ⟨g, [], []⟩ := by
  refine reviseEach_induction (Q := fun _ r => r = ⟨g, [], []⟩) rfl fun done nt r hinitial hr => ?_
  rw [hr]
  show (⟨(revise g nt).grammar, [] ++ (revise g nt).result, [] ++ (revise g nt).journal⟩ :
    Revised (List α)) = _
  rw [h nt (mem_of_initial hinitial)]
  rfl

/-- A revision at each nonterminal of a list keeps an invariant that each of them keeps, and relates
the grammars before and after as each of them does. -/
theorem reviseEach_invariant {α : Type} {revise : Grammar → Nat → Revised (List α)}
    {Inv : Grammar → Prop} {Rel : Grammar → Grammar → Prop} (hrefl : ∀ g, Rel g g)
    (htrans : ∀ {g g' g''}, Rel g g' → Rel g' g'' → Rel g g'') {nts : List Nat}
    (h : ∀ g, ∀ nt ∈ nts, Inv g → Inv (revise g nt).grammar ∧ Rel g (revise g nt).grammar)
    (hg : Inv g) :
    Inv (reviseEach revise g nts).grammar ∧ Rel g (reviseEach revise g nts).grammar := by
  refine reviseEach_induction (Q := fun _ r => Inv r.grammar ∧ Rel g r.grammar) ⟨hg, hrefl g⟩ ?_
  intro done nt r hinitial hr
  obtain ⟨hinv, hrel⟩ := h r.grammar nt (mem_of_initial hinitial) hr.1
  exact ⟨hinv, htrans hr.2 hrel⟩

/-- A revision at each nonterminal of a list keeps what each of the revisions keeps, as long as these
also keep what they ask for. -/
theorem keeps_reviseEach {α : Type} {revise : Grammar → Nat → Revised (List α)} (Inv : Grammar → Prop)
    (h : ∀ (g : Grammar) (nt : Nat), Inv g → Inv (revise g nt).grammar ∧ g.Keeps (revise g nt).grammar)
    (hg : Inv g) (nts : List Nat) :
    Inv (reviseEach revise g nts).grammar ∧ g.Keeps (reviseEach revise g nts).grammar :=
  reviseEach_invariant Keeps.refl Keeps.trans (fun g nt _ => h g nt) hg

end RuleGrammar.Grammar
