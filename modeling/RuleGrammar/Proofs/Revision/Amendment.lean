import RuleGrammar.Proofs.Revision.LeftRecursion
import RuleGrammar.Proofs.Revision.Separation
import RuleGrammar.Proofs.Revision.Useless

/-!
# What a revision leaves as it is

A revision is made for some nonterminals.  Whatever it does to their rules, the tables stay as they are
but for new nonterminals at the end, the names of these were not in use, all other rules stay, and nothing
is opened that was not opened before.

* `Opens`, `Allows`: what the rules of a grammar open, and trees that open no more.
* `Amended`: all that a revision leaves as it is; `Amended.trans` and the single changes.
* `amended_eliminate`, `amended_eliminateAll`: the removal of left recursion.
* `Placing`, `placing_placeGroup`, `amended_pass`: factoring, group by group and pass by pass.
* `amended_factor`, `amended_factorAll`: factoring as a whole.
* `amended_removeUseless`: the removal of useless rules.
-/

namespace RuleGrammar

open RuleGrammar.Tree

namespace Grammar

open SymbolTable

variable {g g' g'' : Grammar} {revised other : Nat → Prop} {nt : Nat} {rule t : Rule} {base : String}

/-! ### Opened names -/

/-- Some rule of the grammar opens a nonterminal. -/
def Opens (g : Grammar) (id : Nat) : Prop :=
  ∃ nt rule, g.rule? nt = some rule ∧ (id, true) ∈ rule.mentions

/-- A tree opens only what the rules of the grammar open. -/
def Allows (g : Grammar) (t : Rule) : Prop := ∀ id, (id, true) ∈ t.mentions → g.Opens id

theorem allows_of_rule? (h : g.rule? nt = some rule) : g.Allows rule :=
  fun _ hid => ⟨nt, rule, h, hid⟩

theorem allows_closed (g : Grammar) (nt : Nat) : g.Allows (.reference nt false) := by
  intro id h
  simp [mentions] at h

theorem piecewise_allows (g : Grammar) : Piecewise g.Allows where
  epsilon id h := by simp [epsilon, mentions] at h
  seq {l r} := by simp only [Allows, mentions, List.mem_append, or_imp, forall_and]
  alt {l r} := by simp only [Allows, mentions, List.mem_append, or_imp, forall_and]

/-! ### Amended grammars -/

/-- The second grammar is the first one after changes that were made for the revised nonterminals. -/
structure Amended (g : Grammar) (revised : Nat → Prop) (g' : Grammar) : Prop where
  terminals : g'.terminals = g.terminals
  semantics : g'.semantics = g.semantics
  macros : g'.macros = g.macros
  nonterminals : g.nonterminals.Extends g'.nonterminals
  fresh : ∀ m name, g.nonterminals.size ≤ m → g'.nonterminals.name? m = some name →
    Token.IsIdentifier name ∧ ¬ name ∈ g.nonterminals.names
  kept : ∀ m, m < g.nonterminals.size → ¬ revised m → g'.rule? m = g.rule? m
  opens : ∀ id, g'.Opens id → g.Opens id

namespace Amended

theorem refl (g : Grammar) (revised : Nat → Prop) : g.Amended revised g where
  terminals := rfl
  semantics := rfl
  macros := rfl
  nonterminals := Extends.refl _
  fresh m name hle hname := by
    have hlt := lt_size_of_name? hname
    omega
  kept _ _ _ := rfl
  opens _ h := h

/-- Further changes may be made for the same nonterminals and for new ones. -/
theorem trans (h : g.Amended revised g') (h' : g'.Amended other g'')
    (hsub : ∀ m, m < g.nonterminals.size → other m → revised m) : g.Amended revised g'' where
  terminals := h'.terminals.trans h.terminals
  semantics := h'.semantics.trans h.semantics
  macros := h'.macros.trans h.macros
  nonterminals := h.nonterminals.trans h'.nonterminals
  fresh m name hle hname := by
    by_cases hlt : m < g'.nonterminals.size
    · -- the name was new in the grammar between
      obtain ⟨middle, hmiddle⟩ := exists_name?_of_lt hlt
      have hlater := h'.nonterminals m middle hmiddle
      rw [hname] at hlater
      cases hlater
      exact h.fresh m name hle hmiddle
    · refine ⟨(h'.fresh m name (by omega) hname).1, ?_⟩
      exact (h.nonterminals.trans h'.nonterminals).not_mem_of_name? hle hname
  kept m hm hnot := by
    have hle := h.nonterminals.size_le
    rw [h'.kept m (by omega) fun hother => hnot (hsub m hm hother)]
    exact h.kept m hm hnot
  opens id hid := h.opens id (h'.opens id hid)

theorem mono (h : g.Amended other g') (hsub : ∀ m, m < g.nonterminals.size → other m → revised m) :
    g.Amended revised g' :=
  (refl g revised).trans h hsub

theorem grows (h : g.Amended revised g') : g.Grows g' where
  terminals := by
    rw [h.terminals]
    exact Extends.refl _
  nonterminals := h.nonterminals
  semantics := by
    rw [h.semantics]
    exact Extends.refl _

/-! ### Single changes -/

/-- The place of one rule may change, if its nonterminal is new or revised and the tables stay. -/
theorem changeRule (h : g.Amended revised g') (hnt : nt < g.nonterminals.size → revised nt)
    {stored : Option Rule} (hstored : ∀ rule, stored = some rule → g.Allows rule)
    (hterminals : g''.terminals = g'.terminals) (hnonterminals : g''.nonterminals = g'.nonterminals)
    (hsemantics : g''.semantics = g'.semantics) (hmacros : g''.macros = g'.macros)
    (hrules : ∀ m, g''.rule? m = if m = nt then stored else g'.rule? m) : g.Amended revised g'' where
  terminals := hterminals.trans h.terminals
  semantics := hsemantics.trans h.semantics
  macros := hmacros.trans h.macros
  nonterminals := by
    rw [hnonterminals]
    exact h.nonterminals
  fresh := by
    rw [hnonterminals]
    exact h.fresh
  kept m hm hnot := by
    have hne : m ≠ nt := fun hmn => hnot (hmn ▸ hnt (hmn ▸ hm))
    rw [hrules, if_neg hne]
    exact h.kept m hm hnot
  opens id hid := by
    obtain ⟨m, rule, hrule, hmention⟩ := hid
    rw [hrules] at hrule
    split at hrule
    · exact hstored rule hrule id hmention
    · exact h.opens id ⟨m, rule, hrule, hmention⟩

theorem setRule (h : g.Amended revised g') (hnt : nt < g.nonterminals.size → revised nt)
    (hrule : g.Allows rule) : g.Amended revised (g'.setRule nt rule) := by
  refine h.changeRule hnt (fun other hother => ?_) rfl rfl rfl rfl (rule?_setRule g' nt rule)
  cases hother
  exact hrule

theorem takeRule (h : g.Amended revised g') (hnt : nt < g.nonterminals.size → revised nt) :
    g.Amended revised (g'.takeRule nt) := by
  refine h.changeRule hnt (fun other hother => ?_) rfl rfl rfl rfl (rule?_takeRule g' nt)
  cases hother

theorem addFresh (h : g.Amended revised g') (hbase : Token.IsIdentifier base) :
    g.Amended revised (g'.addFresh base).1 := by
  obtain ⟨_, _, hrules, hgrows⟩ := g'.addFresh_spec base
  refine ⟨h.terminals, h.semantics, h.macros, h.nonterminals.trans hgrows.nonterminals, ?_, ?_, ?_⟩
  · intro m name hle hname
    have hunused := (h.nonterminals.trans hgrows.nonterminals).not_mem_of_name? hle hname
    rcases name?_or_eq_of_insert hname with hold | rfl
    · exact h.fresh m name hle hold
    · exact ⟨isIdentifier_freshName _ hbase, hunused⟩
  · intro m hm hnot
    rw [hrules]
    exact h.kept m hm hnot
  · intro id hid
    obtain ⟨m, stored, hstored, hmention⟩ := hid
    rw [hrules] at hstored
    exact h.opens id ⟨m, stored, hstored, hmention⟩

theorem withRule (h : g.Amended revised g') (hbase : Token.IsIdentifier base) (hrule : g.Allows rule) :
    g.Amended revised (withRule g' base rule) := by
  have hle := h.nonterminals.size_le
  refine (h.addFresh hbase).setRule (fun hlt => ?_) hrule
  omega

end Amended

/-- A revision at each nonterminal of a list is made for the nonterminals of the list. -/
theorem amended_reviseEach {α : Type} {revise : Grammar → Nat → Revised (List α)}
    {Inv : Grammar → Prop} (hinv : ∀ (g : Grammar) (nt : Nat), Inv g → Inv (revise g nt).grammar)
    (h : ∀ (g : Grammar) (nt : Nat), Inv g → g.Amended (· = nt) (revise g nt).grammar) (hg : Inv g)
    (nts : List Nat) : g.Amended (· ∈ nts) (reviseEach revise g nts).grammar := by
  have hstep : ∀ g, ∀ nt ∈ nts, Inv g →
      Inv (revise g nt).grammar ∧ g.Amended (· ∈ nts) (revise g nt).grammar := by
    intro g nt hnt hg
    refine ⟨hinv g nt hg, (h g nt hg).mono fun m _ hm => ?_⟩
    rw [hm]
    exact hnt
  exact (reviseEach_invariant (fun g => Amended.refl g _)
    (fun h h' => h.trans h' fun _ _ hm => hm) hstep hg).2

end Grammar

open Grammar

variable {g : Grammar} {nt : Nat} {rule : Rule}

/-! ### Left recursion -/

namespace LeftRecursion

theorem amended_eliminate (hg : g.Orderly) (nt : Nat) : g.Amended (· = nt) (eliminate g nt).grammar := by
  have hpieces := piecewise_allows g
  have hbegin := Amended.refl g (· = nt)
  rcases eliminate_cases g nt with ⟨_, hsame⟩ | ⟨rule, head, hrule, _, hhead, hset, _⟩ |
    ⟨rule, head, rest, hrule, hhead, hrest, hset, _⟩
  · rw [hsame]
    exact hbegin
  · rw [hset]
    refine hbegin.setRule (fun _ => rfl) (hpieces.of_alternation hhead fun b hb => ?_)
    exact piecewise_of_mem_bases hpieces (allows_of_rule? hrule) hb
  · have hname := isIdentifier_tailName (hg.isIdentifier_name (hg.owned hrule))
    have htail := allows_closed g g.nonterminals.size
    rw [hset]
    refine ((hbegin.addFresh hname).setRule (fun _ => rfl) ?_).setRule (fun hlt => ?_) ?_
    · refine piecewise_headRule hpieces hhead (fun b hb => ?_) htail
      exact piecewise_of_mem_bases hpieces (allows_of_rule? hrule) hb
    · omega
    · refine piecewise_tailRule hpieces hrest (fun t ht => ?_) htail
      exact piecewise_of_mem_tails hpieces (allows_of_rule? hrule) ht

theorem amended_eliminateAll (hg : g.Orderly) :
    g.Amended (· ∈ g.nonterminals.ids) (eliminateAll g).grammar :=
  amended_reviseEach (fun g nt (hg : g.Orderly) => orderly_eliminate hg nt)
    (fun _ nt hg => amended_eliminate hg nt) hg _

end LeftRecursion

/-! ### Left factoring -/

namespace Factoring

/-- What holds while the groups of alternatives are placed: the grammar has new nonterminals and no other
changes, and the alternatives of the revised rule open nothing new. -/
structure Placing (g : Grammar) (p : Progress) : Prop where
  amended : g.Amended (fun _ => False) p.grammar
  allowed : ∀ t ∈ p.alternatives, g.Allows t

/-- One more alternative that opens nothing new. -/
theorem Placing.concat {p p' : Progress} {t : Rule} (h : Placing g p)
    (halternatives : p'.alternatives = p.alternatives ++ [t])
    (hamended : g.Amended (fun _ => False) p'.grammar) (hallows : g.Allows t) : Placing g p' := by
  refine ⟨hamended, fun u hu => ?_⟩
  rw [halternatives] at hu
  rcases List.mem_append.1 hu with hu | hu
  · exact h.allowed u hu
  · rw [List.mem_singleton.1 hu]
    exact hallows

theorem placing_mergeGroup {p : Progress} (h : Placing g p) {name : String}
    (hname : Token.IsIdentifier name) {a : Alternative} {rest : List Alternative} (ha : a.Of g)
    (hrest : ∀ b ∈ rest, b.texts.head? = a.texts.head?)
    (hallows : ∀ b ∈ a :: rest, ∀ t ∈ b.elements, g.Allows t) :
    Placing g (mergeGroup name p (a :: rest)) := by
  have hpieces := piecewise_allows g
  obtain ⟨remaining, common, hremaining, hcommon, hgrammar, halternatives⟩ :=
    mergeGroup_spec ha hrest name p
  refine h.concat halternatives ?_ ?_
  · rw [hgrammar]
    refine h.amended.withRule (isIdentifier_remainderName hname) ?_
    refine hpieces.of_alternation hremaining fun t ht => ?_
    obtain ⟨b, hb, rfl⟩ := List.mem_map.1 ht
    exact piecewise_remainder hpieces (hallows b hb) _
  · refine hpieces.join (hpieces.of_concatenation hcommon fun t ht => ?_) (allows_closed g _)
    exact hallows a (List.mem_cons_self ..) t (List.mem_of_mem_take ht)

/-- Placing a group goes on, alone or merged. -/
theorem placing_placeGroup {p : Progress} {group : List Alternative} (h : Placing g p) {name : String}
    (hname : Token.IsIdentifier name) (hshare : SharesHead group) (hof : ∀ b ∈ group, b.Of g)
    (hallows : ∀ b ∈ group, ∀ t ∈ b.elements, g.Allows t) : Placing g (placeGroup name p group) := by
  obtain ⟨a, rest, rfl, hhead⟩ := hshare
  have ha := hof a (List.mem_cons_self ..)
  cases rest with
  | cons b rest =>
      exact placing_mergeGroup h hname ha (fun b hb => hhead b (List.mem_cons_of_mem _ hb)) hallows
  | nil =>
      obtain ⟨t, ht⟩ := exists_concatenation ha.nonempty
      have halternatives : (placeGroup name p [a]).alternatives = p.alternatives ++ [t] := by
        simp only [placeGroup, ht, Option.toList_some]
      refine h.concat halternatives h.amended ?_
      exact (piecewise_allows g).of_concatenation ht (hallows a (List.mem_cons_self ..))

theorem allows_of_mem_distinct (hrule : g.Allows rule) {a : Alternative}
    (ha : a ∈ distinct (rule.alternatives.map (Alternative.ofRule g))) :
    ∀ t ∈ a.elements, g.Allows t := by
  have hpieces := piecewise_allows g
  obtain ⟨u, hu, rfl⟩ := exists_of_mem_distinct ha
  intro t ht
  exact hpieces.of_mem_sequence (hpieces.of_mem_alternatives hrule hu) ht

/-- One pass is made for its nonterminal. -/
theorem amended_pass (hg : g.Orderly) (nt : Nat) : g.Amended (· = nt) (pass g nt).grammar := by
  rcases pass_cases g nt with ⟨_, hsame⟩ | ⟨rule, p, hrule, hp, hgrammar, _⟩
  · rw [hsame]
    exact Amended.refl g _
  · have hof := of_of_mem_distinct (hg.covered hrule)
    have hallows := fun a => allows_of_mem_distinct (a := a) (allows_of_rule? hrule)
    have hname := hg.isIdentifier_name (hg.owned hrule)
    have hplacing : Placing g p := by
      have hbegin : Placing g { grammar := g } := ⟨Amended.refl g _, fun t ht => (by cases ht)⟩
      rw [hp]
      refine List.foldlRecOn _ _ hbegin fun p hplacing group hgroup => ?_
      obtain ⟨hshare, hmem⟩ := sharesHead_of_mem_groups hgroup
      exact placing_placeGroup hplacing hname hshare (fun b hb => hof b (hmem b hb))
        fun b hb => hallows b (hmem b hb)
    have hnew : g.Amended (· = nt) p.grammar := hplacing.amended.mono fun m _ hm => hm.elim
    rw [hgrammar]
    unfold setAlternatives
    split
    · next revised hrevised =>
        refine hnew.setRule (fun _ => rfl) ?_
        exact (piecewise_allows g).of_alternation hrevised hplacing.allowed
    · exact hnew

theorem amended_factorWithin : ∀ (depth : Nat) {g : Grammar} (nt : Nat), g.Orderly →
    g.Amended (· = nt) (factorWithin depth g nt).grammar := by
  intro depth
  induction depth with
  | zero =>
      intro g nt _
      exact Amended.refl g _
  | succ depth ih =>
      intro g nt hg
      have hrest := amended_reviseEach (fun _ nt hg => (keeps_factorWithin depth nt hg).1)
        (fun _ nt hg => ih nt hg) (keeps_pass hg nt).1 (pass g nt).result.reverse
      rw [factorWithin, passes_eq_pass hg nt (by decide)]
      -- the nonterminals that come after the first one are all new
      refine (amended_pass hg nt).trans hrest fun m hm hmem => ?_
      have hle := le_of_mem_pass hg (List.mem_reverse.1 hmem)
      omega

theorem amended_factor (hg : g.Orderly) (nt : Nat) : g.Amended (· = nt) (factor g nt).grammar :=
  amended_factorWithin _ nt hg

theorem amended_factorAll (hg : g.Orderly) :
    g.Amended (· ∈ g.nonterminals.ids) (factorAll g).grammar :=
  amended_reviseEach (fun _ nt hg => (keeps_factorWithin _ nt hg).1)
    (fun _ nt hg => amended_factor hg nt) hg _

end Factoring

/-! ### Useless rules -/

namespace Useless

theorem amended_clearUnmarked (g : Grammar) (marks : Flags) :
    g.Amended (· ∈ (clearUnmarked g marks).result) (clearUnmarked g marks).grammar :=
  List.foldlRecOn (unmarked g marks) _ (Amended.refl g _) fun _ h _ hnt => h.takeRule fun _ => hnt

theorem amended_removeUseless (g : Grammar) :
    g.Amended (· ∈ (removeUseless g).result) (removeUseless g).grammar := by
  simp only [removeUseless, Revised.andThen]
  generalize (productive g).value = flags
  -- the rules of unproductive nonterminals go first, then those of unreachable ones
  have hfirst := amended_clearUnmarked g flags
  have hsecond := amended_clearUnmarked (clearUnmarked g flags).grammar
    (reachable (clearUnmarked g flags).grammar flags)
  refine (hfirst.mono fun m _ hm => ?_).trans hsecond fun m _ hm => ?_
  · exact List.mem_append_left _ hm
  · exact List.mem_append_right _ hm

end Useless

end RuleGrammar
