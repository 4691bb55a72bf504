import Mathlib.Data.List.Basic
import RuleGrammar.Proofs.Recognition
import RuleGrammar.Proofs.RoundTrip

/-!
# Languages over names

Two grammars may number the same names differently.  To compare them, a word is taken as a list of
terminal names, and the words of a name are the least family that is closed under the rules over names.
What a grammar accepts depends only on these.

* `Spoken rules name w`: the name derives the word, given the rules of names.
* `spoken_leftNested_iff`: nesting chains to the left makes no difference.
* `acceptsNames`: whether a nonterminal derives a word of terminal names.
* `acceptsNames_iff_spoken`: what a grammar accepts, by its rules over names.
* `spells_congr_of_text`: trees with the same text have the same words.
-/

namespace RuleGrammar

open SymbolTable

/-- A name derives a word of terminal names, given the rules of names: the word belongs to every family
that is closed under the rules. -/
def Spoken (rules : String → Option Expr) (name : String) (w : List String) : Prop :=
  ∀ S : String → List String → Prop,
    (∀ name rule w, rules name = some rule → rule.Spells (Letter "") S w → S name w) → S name w

variable {rules rules' : String → Option Expr} {name : String} {w : List String}

/-- The family itself is closed under the rules. -/
theorem spoken_of_rule {rule : Expr} (hrule : rules name = some rule)
    (h : rule.Spells (Letter "") (Spoken rules) w) : Spoken rules name w := by
  intro S hS
  exact hS name rule w hrule (h.mono fun _ _ hspoken => hspoken S hS)

/-- Rules with the same words give names the same words. -/
theorem Spoken.of_rules
    (h : ∀ name rule, rules name = some rule → ∃ rule', rules' name = some rule' ∧
      ∀ S w, rule.Spells (Letter "") S w → rule'.Spells (Letter "") S w)
    (hspoken : Spoken rules name w) : Spoken rules' name w := by
  refine hspoken (Spoken rules') fun name rule w hrule hspells => ?_
  obtain ⟨rule', hrule', hsame⟩ := h name rule hrule
  exact spoken_of_rule hrule' (hsame _ w hspells)

/-- Nesting the chains of all rules to the left makes no difference. -/
theorem spoken_leftNested_iff (h : ∀ name, rules' name = (rules name).map Tree.leftNested) :
    Spoken rules' name w ↔ Spoken rules name w := by
  constructor
  · refine Spoken.of_rules fun name rule hrule => ?_
    rw [h] at hrule
    obtain ⟨rule', hrule', rfl⟩ := Option.map_eq_some_iff.1 hrule
    exact ⟨rule', hrule', fun S w hspells => Tree.spells_leftNested.1 hspells⟩
  · refine Spoken.of_rules fun name rule hrule => ?_
    refine ⟨rule.leftNested, by rw [h, hrule]; rfl, fun S w hspells => ?_⟩
    exact Tree.spells_leftNested.2 hspells

namespace Grammar

/-- Whether a nonterminal derives a word that is given by the names of its terminals; a name that is no
terminal makes it no word. -/
def acceptsNames (g : Grammar) (nt : Nat) (names : List String) : Bool :=
  match names.mapM g.terminals.id? with
  | some w => g.accepts nt w
  | none => false

variable {g : Grammar} {nt : Nat}

/-! ### Numbers and names -/

theorem name?_eq_terminalName {t : Nat} (h : t < g.terminals.size) :
    g.terminals.name? t = some (g.terminalName t) := by
  obtain ⟨name, hname⟩ := exists_name?_of_lt h
  rw [terminalName, hname]
  rfl

theorem mapM_id?_eq_some_iff {names : List String} {w : Word} :
    names.mapM g.terminals.id? = some w ↔
      names = w.map g.terminalName ∧ ∀ t ∈ w, t < g.terminals.size := by
  induction names generalizing w with
  | nil =>
      rw [List.mapM_nil]
      constructor
      · rintro ⟨⟩
        exact ⟨rfl, fun t ht => by cases ht⟩
      · rintro ⟨hw, _⟩
        rw [List.map_eq_nil_iff.1 hw.symm]
        rfl
  | cons name names ih =>
      rw [List.mapM_cons]
      constructor
      · intro h
        obtain ⟨t, ht, h⟩ := Option.bind_eq_some_iff.1 h
        obtain ⟨v, hv, h⟩ := Option.bind_eq_some_iff.1 h
        cases h
        obtain ⟨rfl, hall⟩ := ih.1 hv
        rw [id?_eq_some_iff] at ht
        have hlt := lt_size_of_name? ht
        rw [name?_eq_terminalName hlt] at ht
        cases ht
        refine ⟨rfl, fun s hs => ?_⟩
        rcases List.mem_cons.1 hs with rfl | hs
        · exact hlt
        · exact hall s hs
      · rintro ⟨hw, hall⟩
        obtain ⟨t, v, rfl, ht, hv⟩ := List.map_eq_cons_iff.1 hw.symm
        have hid : g.terminals.id? name = some t := by
          rw [id?_eq_some_iff, ← ht]
          exact name?_eq_terminalName (hall t (List.mem_cons_self ..))
        have hrest : names.mapM g.terminals.id? = some v :=
          ih.2 ⟨hv.symm, fun s hs => hall s (List.mem_cons_of_mem _ hs)⟩
        rw [hid, hrest]
        rfl

/-- Only terminal zero has the empty name. -/
theorem terminalName_eq_empty_iff {t : Nat} (h : t < g.terminals.size) :
    g.terminalName t = "" ↔ t = 0 := by
  constructor
  · intro hempty
    have hname := name?_eq_terminalName h
    rw [hempty] at hname
    exact name?_injective hname g.emptyName
  · rintro rfl
    rw [terminalName, g.emptyName]
    rfl

theorem letter_terminalName {t : Nat} (h : t < g.terminals.size) {w : List String} :
    Letter "" (g.terminalName t) w ↔ w = if t = 0 then [] else [g.terminalName t] := by
  unfold Letter
  simp only [terminalName_eq_empty_iff h]

/-! ### Words -/

theorem ruleOf?_nonterminalName {rule : Rule} (hnt : nt < g.nonterminals.size)
    (hrule : g.rule? nt = some rule) : g.ruleOf? (g.nonterminalName nt) = some (g.named rule) :=
  ruleOf?_eq_some_iff.2 ⟨nt, rule, name?_eq_nonterminalName hnt, hrule, rfl⟩

/-- What a nonterminal derives, its name derives. -/
theorem spoken_of_language (hg : g.WellFormed) {w : Word} (h : g.Language nt w) :
    Spoken g.ruleOf? (g.nonterminalName nt) (w.map g.terminalName) := by
  refine language_least (S := fun nt w =>
    Spoken g.ruleOf? (g.nonterminalName nt) (w.map g.terminalName)) ?_ h
  intro nt rule w hnt hrule hspells
  refine spoken_of_rule (ruleOf?_nonterminalName hnt hrule) (Tree.spells_rename.2 ?_)
  have hletter : ∀ t u, t < g.terminals.size → Letter 0 t u →
      Letter "" (g.terminalName t) (u.map g.terminalName) := by
    intro t u ht hu
    rw [letter_terminalName ht, show u = _ from hu]
    split <;> rfl
  obtain ⟨w', rfl, hw'⟩ := hspells.simulate (P := fun w w' => w' = w.map g.terminalName) rfl
    (fun hu hv => by rw [hu, hv, List.map_append]) (fun t u ht hu => ⟨_, rfl, hletter t u ht hu⟩)
    (fun m u _ hu => ⟨_, rfl, hu⟩) (hg.covered hrule).over
  exact hw'

/-- A word of names that the name of a nonterminal derives is the word of numbers that the nonterminal
derives. -/
theorem exists_language_of_spoken (hg : g.WellFormed) (hspoken : Spoken g.ruleOf? name w) :
    ∀ nt, g.nonterminals.name? nt = some name →
      ∃ u : Word, (w = u.map g.terminalName ∧ ∀ t ∈ u, t < g.terminals.size) ∧ g.Language nt u := by
  refine hspoken (fun name w => ∀ nt, g.nonterminals.name? nt = some name →
    ∃ u : Word, (w = u.map g.terminalName ∧ ∀ t ∈ u, t < g.terminals.size) ∧ g.Language nt u) ?_
  intro name e w hruleOf hspells nt hname
  obtain ⟨m, rule, hm, hrule, rfl⟩ := ruleOf?_eq_some_iff.1 hruleOf
  have hmn : m = nt := name?_injective hm hname
  subst hmn
  have hspells' := Tree.spells_rename.1 hspells
  have hsim : ∃ u : Word, (w = u.map g.terminalName ∧ ∀ t ∈ u, t < g.terminals.size) ∧
      rule.Spells (Letter 0) g.Language u := by
    refine hspells'.simulate
      (P := fun w (u : Word) => w = u.map g.terminalName ∧ ∀ t ∈ u, t < g.terminals.size)
      ⟨rfl, fun t ht => by cases ht⟩ ?_ ?_ (fun m v hm hv => hv m (name?_eq_nonterminalName hm))
      (hg.covered hrule).over
    · rintro u v u' v' ⟨rfl, hu⟩ ⟨rfl, hv⟩
      refine ⟨by rw [List.map_append], fun t ht => ?_⟩
      rcases List.mem_append.1 ht with ht | ht
      · exact hu t ht
      · exact hv t ht
    · intro t v ht hv
      rw [letter_terminalName ht] at hv
      refine ⟨if t = 0 then [] else [t], ⟨?_, fun s hs => ?_⟩, rfl⟩
      · rw [hv]
        split <;> rfl
      · split at hs
        · cases hs
        · rw [List.mem_singleton.1 hs]
          exact ht
  obtain ⟨u, hu, hderives⟩ := hsim
  exact ⟨u, hu, language_iff.2 ⟨hg.owned hrule, rule, hrule, derives_iff_spells.2 hderives⟩⟩

/-- **What a grammar accepts depends on its rules over names alone.** -/
theorem acceptsNames_iff_spoken (hg : g.WellFormed) (hname : g.nonterminals.name? nt = some name) :
    g.acceptsNames nt w = true ↔ Spoken g.ruleOf? name w := by
  have haccepts : g.acceptsNames nt w = true ↔
      ∃ u, w.mapM g.terminals.id? = some u ∧ g.Language nt u := by
    unfold acceptsNames
    cases hmap : w.mapM g.terminals.id? with
    | none => simp
    | some u => simp [accepts_iff]
  rw [haccepts]
  constructor
  · rintro ⟨u, hmap, hu⟩
    obtain ⟨rfl, _⟩ := mapM_id?_eq_some_iff.1 hmap
    have hspoken := spoken_of_language hg hu
    rwa [nonterminalName_eq_of_name? hname] at hspoken
  · intro hspoken
    obtain ⟨u, hu, hlanguage⟩ := exists_language_of_spoken hg hspoken nt hname
    exact ⟨u, mapM_id?_eq_some_iff.2 hu, hlanguage⟩

/-! ### Trees with the same text -/

variable {t u : Rule} {S : Nat → Word → Prop} {v : Word}

/-- A covered tree has the words of its names, when each name has the words of its number. -/
theorem spells_named_iff (ht : g.Covers t) :
    (g.named t).Spells (fun name w => ∃ a, g.terminals.name? a = some name ∧ Letter 0 a w)
      (fun name w => ∃ m, g.nonterminals.name? m = some name ∧ S m w) v ↔
      t.Spells (Letter 0) S v := by
  rw [named, Tree.spells_rename]
  have hname : ∀ {s : SymbolTable} {P : Nat → Word → Prop} {a : Nat} {w : Word}, a < s.size →
      ((∃ b, s.name? b = some ((s.name? a).getD "?") ∧ P b w) ↔ P a w) := by
    intro s P a w ha
    obtain ⟨name, hname⟩ := SymbolTable.exists_name?_of_lt ha
    rw [hname]
    constructor
    · rintro ⟨b, hb, h⟩
      rw [SymbolTable.name?_injective hname hb]
      exact h
    · intro h
      exact ⟨a, hname, h⟩
  constructor
  · intro h
    exact h.mono_on (fun _ _ ha h => (hname ha).1 h) (fun _ _ hm h => (hname hm).1 h) ht.over
  · intro h
    exact h.mono_on (fun _ _ ha h => (hname ha).2 h) (fun _ _ hm h => (hname hm).2 h) ht.over

/-- **Trees with the same text have the same words.** -/
theorem spells_congr_of_text (hg : g.Readable) (ht : g.Covers t) (hu : g.Covers u)
    (h : g.ruleText t = g.ruleText u) : t.Spells (Letter 0) S v ↔ u.Spells (Letter 0) S v := by
  have hnested := Tree.leftNested_eq_of_text_eq (legible_named hg ht) (legible_named hg hu) h
  rw [← spells_named_iff ht, ← spells_named_iff hu, ← Tree.spells_leftNested, hnested,
    Tree.spells_leftNested]

end Grammar

end RuleGrammar
