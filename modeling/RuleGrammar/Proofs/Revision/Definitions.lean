import RuleGrammar.Proofs.Revision

/-!
# New nonterminals that stand for trees

A revision may give names to trees: new nonterminals whose rules refer to old nonterminals only.  To
compare another form of a rule with the rule, it is then enough to do so where every new nonterminal has
exactly the words of its rule, for such words can be given to the new nonterminals in both grammars.

* `Defines`: the second grammar has new nonterminals for trees over the first one.
* `Unfolds`: every new nonterminal has the words of its rule.
* `keeps_of_unfolds`: another form of a rule keeps every language.
* `withRule`, `Defines.withRule`, `Unfolds.of_withRule`: one more nonterminal for a tree.
-/

namespace RuleGrammar.Grammar

variable {g g' : Grammar} {nt m : Nat} {rule t : Rule} {S : Nat → Word → Prop} {w : Word}

/-- The second grammar has all rules of the first one, and new nonterminals with rules over the tables
of the first one. -/
structure Defines (g g' : Grammar) : Prop where
  terminals : g'.terminals = g.terminals
  semantics : g'.semantics = g.semantics
  nonterminals : g.nonterminals.Extends g'.nonterminals
  old : ∀ m, m < g.nonterminals.size → g'.rule? m = g.rule? m
  new : ∀ m, g.nonterminals.size ≤ m → m < g'.nonterminals.size →
    ∃ rule, g'.rule? m = some rule ∧ g.Covers rule

theorem Defines.refl (g : Grammar) : Defines g g :=
  ⟨rfl, rfl, SymbolTable.Extends.refl _, fun _ _ => rfl, fun m hle hlt => by omega⟩

theorem Defines.grows (h : Defines g g') : g.Grows g' :=
  ⟨by rw [h.terminals]; exact .refl _, h.nonterminals, by rw [h.semantics]; exact .refl _⟩

/-- Every new nonterminal has exactly the words of its rule. -/
def Unfolds (g g' : Grammar) (S : Nat → Word → Prop) : Prop :=
  ∀ m rule, g.nonterminals.size ≤ m → m < g'.nonterminals.size → g'.rule? m = some rule →
    ∀ w, S m w ↔ rule.Spells (Letter 0) S w

/-- The languages of a grammar unfold. -/
theorem unfolds_language (g g' : Grammar) : Unfolds g g' g'.Language := by
  intro m rule _ hlt hrule w
  rw [language_iff]
  constructor
  · rintro ⟨_, other, hother, hderives⟩
    rw [hrule] at hother
    cases hother
    exact derives_iff_spells.1 hderives
  · intro h
    exact ⟨hlt, rule, hrule, derives_iff_spells.2 h⟩

/-- The old languages, with the words of their rules for the new nonterminals. -/
def Extended (g g' : Grammar) (m : Nat) (w : Word) : Prop :=
  if m < g.nonterminals.size then g.Language m w
  else ∃ rule, g'.rule? m = some rule ∧ rule.Spells (Letter 0) g.Language w

theorem extended_old (hm : m < g.nonterminals.size) : Extended g g' m w ↔ g.Language m w := by
  rw [Extended, if_pos hm]

theorem spells_extended_iff (ht : g.Covers t) :
    t.Spells (Letter 0) (Extended g g') w ↔ t.Spells (Letter 0) g.Language w := by
  constructor
  · intro h
    exact h.mono_on (fun _ _ _ h => h) (fun m _ hm h => (extended_old hm).1 h) ht.over
  · intro h
    exact h.mono_on (fun _ _ _ h => h) (fun m _ hm h => (extended_old hm).2 h) ht.over

theorem Defines.unfolds_extended (h : Defines g g') : Unfolds g g' (Extended g g') := by
  intro m rule hle hlt hrule w
  obtain ⟨other, hother, hcovers⟩ := h.new m hle hlt
  rw [hrule] at hother
  cases hother
  rw [spells_extended_iff hcovers, Extended, if_neg (by omega)]
  constructor
  · rintro ⟨other, hother, hspells⟩
    rw [hrule] at hother
    cases hother
    exact hspells
  · intro hspells
    exact ⟨rule, hrule, hspells⟩

/-- A rule that has the same words whenever the new nonterminals have those of their rules may take the
place of another one. -/
theorem keeps_of_unfolds (h : Defines g g') (hg : g.WellFormed) (hrule : g.rule? nt = some rule)
    {revised : Rule} (hsame : ∀ S, Unfolds g g' S → ∀ w,
      (revised.Spells (Letter 0) S w ↔ rule.Spells (Letter 0) S w)) :
    g.Keeps (g'.setRule nt revised) := by
  have hnt := hg.owned hrule
  have hle := h.nonterminals.size_le
  have hunfolds : Unfolds g g' (g'.setRule nt revised).Language := by
    intro m other hge hlt hother
    refine unfolds_language g (g'.setRule nt revised) m other hge hlt ?_
    rw [rule?_setRule, if_neg (by omega)]
    exact hother
  refine ⟨h.terminals, h.semantics, h.nonterminals, fun {m w} hm => ⟨fun hw => ?_, fun hw => ?_⟩⟩
  · -- the old languages, extended to the new nonterminals, are closed under the revised rules
    refine (extended_old hm).1 (?_ : Extended g g' m w)
    refine language_least (fun m other w hlt hother hspells => ?_) hw
    rw [rule?_setRule] at hother
    by_cases hmn : m = nt
    · subst hmn
      rw [if_pos rfl] at hother
      cases hother
      have hspells := (hsame _ h.unfolds_extended w).1 hspells
      rw [spells_extended_iff (hg.covered hrule)] at hspells
      exact (extended_old hnt).2 (language_iff.2 ⟨hnt, rule, hrule, derives_iff_spells.2 hspells⟩)
    · rw [if_neg hmn] at hother
      by_cases hold : m < g.nonterminals.size
      · rw [h.old m hold] at hother
        rw [spells_extended_iff (hg.covered hother)] at hspells
        exact (extended_old hold).2 (language_iff.2 ⟨hold, other, hother, derives_iff_spells.2 hspells⟩)
      · exact (h.unfolds_extended m other (by omega) hlt hother w).2 hspells
  · -- the languages of the larger grammar unfold by themselves
    refine language_least (fun m other w hlt hother hspells => ?_) hw
    by_cases hmn : m = nt
    · subst hmn
      rw [hrule] at hother
      cases hother
      refine language_iff.2 ⟨Nat.lt_of_lt_of_le hlt hle, revised, by rw [rule?_setRule, if_pos rfl], ?_⟩
      exact derives_iff_spells.2 ((hsame _ hunfolds w).2 hspells)
    · refine language_iff.2 ⟨Nat.lt_of_lt_of_le hlt hle, other, ?_, derives_iff_spells.2 hspells⟩
      rw [rule?_setRule, if_neg hmn, h.old m hlt]
      exact hother

/-! ### One more nonterminal -/

/-- The grammar with a new nonterminal for a rule. -/
def withRule (g : Grammar) (base : String) (rule : Rule) : Grammar :=
  (g.addFresh base).1.setRule g.nonterminals.size rule

theorem size_withRule (g : Grammar) (base : String) (rule : Rule) :
    (withRule g base rule).nonterminals.size = g.nonterminals.size + 1 :=
  (g.addFresh_spec base).2.1

theorem rule?_withRule (g : Grammar) (base : String) (rule : Rule) (m : Nat) :
    (withRule g base rule).rule? m = if m = g.nonterminals.size then some rule else g.rule? m := by
  rw [withRule, rule?_setRule, (g.addFresh_spec base).2.2.1]

theorem grows_withRule (g : Grammar) (base : String) (rule : Rule) : g.Grows (withRule g base rule) :=
  (g.addFresh_spec base).2.2.2.trans (grows_setRule _ _ _)

theorem orderly_withRule (hg : g.Orderly) {base : String} (hbase : Token.IsIdentifier base)
    (hrule : g.Covers rule) : (withRule g base rule).Orderly := by
  obtain ⟨_, hsize, _, hgrows⟩ := g.addFresh_spec base
  exact (hg.addFresh hbase).setRule (by omega) (hgrows.covers hrule)

/-- One more nonterminal for a rule over the old tables. -/
theorem Defines.withRule (h : Defines g g') (base : String) (hrule : g.Covers rule) :
    Defines g (withRule g' base rule) where
  terminals := h.terminals
  semantics := h.semantics
  nonterminals := h.nonterminals.trans (grows_withRule g' base rule).nonterminals
  old m hm := by
    have hle := h.nonterminals.size_le
    rw [rule?_withRule, if_neg (by omega)]
    exact h.old m hm
  new m hle hlt := by
    rw [size_withRule] at hlt
    rw [rule?_withRule]
    split
    · exact ⟨rule, rfl, hrule⟩
    · exact h.new m hle (by omega)

theorem Unfolds.of_withRule (hle : g.nonterminals.size ≤ g'.nonterminals.size) {base : String}
    (h : Unfolds g (withRule g' base rule) S) :
    Unfolds g g' S ∧ ∀ w, S g'.nonterminals.size w ↔ rule.Spells (Letter 0) S w := by
  have hsize := size_withRule g' base rule
  constructor
  · intro m other hge hlt hother
    refine h m other hge (by omega) ?_
    rw [rule?_withRule, if_neg (by omega)]
    exact hother
  · refine h g'.nonterminals.size rule hle (by omega) ?_
    rw [rule?_withRule, if_pos rfl]

end RuleGrammar.Grammar
