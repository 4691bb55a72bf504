import RuleGrammar.Proofs.Prediction

/-!
# What the first two analyses cover

Every word that a nonterminal derives is read by a parse tree over the expanded rules, and so the first
two analyses know of it: a nonterminal that derives the empty word counts as nullable, and one that
derives a word begins with its first letter.  For the second of these, the first letter must not be
read in the right part of an iteration, since the analysis looks for lookaheads in left parts only.

* `Grammar.ledByLeft_expandWithin`, `Grammar.ledByLeft_of_expandedRule?`: expansion puts trees of the
  grammar in the place of references, so what holds of the iterations of all rules holds of the
  expanded rules as well.
* `Analysis.nullable_and_first_of_accepts`: what the analyses know of an accepted word.
* `Analysis.first_misses_right_part`: an iteration that begins in its right part.
-/

namespace RuleGrammar

variable {g : Grammar}

namespace Grammar

/-! ### Iterations of expanded rules -/

/-- If the words of all iterations of the rules and of a tree begin in their left parts, then so do
those of the expanded tree. -/
theorem ledByLeft_expandWithin (hg : g.WellFormed)
    (hrules : ∀ nt rule, g.rule? nt = some rule → g.LedByLeft rule) (depth : Nat) :
    ∀ (path : List Nat) (t : Rule), g.LedByLeft t → g.LedByLeft (g.expandWithin depth path t) := by
  -- the rules that are put in place are expanded less deeply, and in them the trees get smaller
  induction depth using Nat.strongRecOn with
  | ind depth ihdepth =>
      intro path t
      induction t with
      | terminal a =>
          intro _
          cases depth <;> trivial
      | semantic a =>
          intro _
          cases depth <;> trivial
      | reference nt opened =>
          intro _
          obtain hplain | ⟨rule, depth', path', hlt, hrule, hopened⟩ :=
            expandWithin_reference (g := g) depth path nt opened
          · rw [hplain]
            trivial
          · rw [hopened]
            exact ihdepth depth' hlt path' rule (hrules nt rule hrule)
      | seq l r ihl ihr =>
          intro ht
          rw [expandWithin_seq]
          exact ⟨ihl ht.1, ihr ht.2⟩
      | alt l r ihl ihr =>
          intro ht
          rw [expandWithin_alt]
          exact ⟨ihl ht.1, ihr ht.2⟩
      | iter l r ihl ihr =>
          intro ht
          rw [expandWithin_iter]
          refine ⟨fun hnil w hw => ?_, ihl ht.2.1, ihr ht.2.2⟩
          rw [derives_expandWithin_iff hg] at hnil hw
          exact ht.1 hnil w hw

theorem ledByLeft_of_expandedRule? (hg : g.WellFormed)
    (hrules : ∀ nt rule, g.rule? nt = some rule → g.LedByLeft rule) {nt : Nat} {rule : Rule}
    (h : g.expandedRule? nt = some rule) : g.LedByLeft rule := by
  obtain ⟨plain, hplain, hexpanded⟩ := Option.map_eq_some_iff.1 h
  rw [← hexpanded]
  exact ledByLeft_expandWithin hg hrules _ [] plain (hrules nt plain hplain)

end Grammar

/-! ### Accepted words -/

namespace Analysis

/-- **The first two analyses cover accepted words.**  A nonterminal that accepts the empty word counts
as nullable.  A nonterminal that accepts another word begins with the first letter of that word, if in
some parse tree of the word this letter is not read in the right part of an iteration; and so it does
if beside a left part that derives the empty word no iteration has a right part that derives another
word. -/
theorem nullable_and_first_of_accepts (hg : g.WellFormed) (hsize : g.nonterminals.size ≤ 999)
    {nt : Nat} {w : Word} (h : g.accepts nt w = true) :
    (w = [] → (compute g).nullable nt = true) ∧
      ((∃ p : ParseTree g.tableExpandedRule? (.reference nt false), p.yield = w ∧ p.BeginsLeft) →
        ∀ t, w.head? = some t → (Lookahead.terminal t).slot ∈ (compute g).first nt) ∧
      ((∀ m rule, g.rule? m = some rule → g.LedByLeft rule) →
        ∀ t, w.head? = some t → (Lookahead.terminal t).slot ∈ (compute g).first nt) := by
  have ha := saturated_compute hsize
  obtain ⟨p, hp⟩ := ((g.accepts_iff nt w).1 h).exists_parseTree
  have hcover : (∃ p : ParseTree g.tableExpandedRule? (.reference nt false),
      p.yield = w ∧ p.BeginsLeft) →
      ∀ t, w.head? = some t → (Lookahead.terminal t).slot ∈ (compute g).first nt := by
    intro hleft t ht
    obtain ⟨q, hq, hbegins⟩ := hleft
    obtain ⟨rest, hw⟩ := List.head?_eq_some_iff.1 ht
    have hyield : q.yield = t :: rest := hq.trans hw
    have hfirst := q.next_mem_first ha hbegins (by rw [hyield]; exact List.cons_ne_nil t rest)
    rw [hyield] at hfirst
    exact hfirst
  refine ⟨fun hw => p.nullable_of_yield ha (hp.trans hw), hcover, fun hrules => hcover ⟨p, hp, ?_⟩⟩
  have hexpanded : ∀ m rule, g.expandedRule? m = some rule → g.LedByLeft rule :=
    fun m rule hrule => Grammar.ledByLeft_of_expandedRule? hg hrules hrule
  exact (p.ledByLeft_of_rules hg hexpanded trivial).beginsLeft

/-- A sign is nullable, and a list of items may begin with a sign. -/
theorem nullable_and_first_signedItems :
    (compute Prediction.signedItems).nullable 2 = true ∧
      (Lookahead.terminal 4).slot ∈ (compute Prediction.signedItems).first 0 := by
  have hrules : ∀ m rule, Prediction.signedItems.rule? m = some rule →
      Prediction.signedItems.LedByLeft rule := by
    intro m rule h
    match m with
    | 0 =>
        cases h
        refine ⟨fun hder => ?_, trivial, trivial⟩
        exact absurd ((Prediction.signedItems.recognizes_iff _ []).2 hder) (by decide +kernel)
    | 1 => cases h; exact ⟨⟨trivial, trivial⟩, trivial⟩
    | 2 => cases h; exact ⟨trivial, trivial⟩
    | n + 3 => cases h
  have hsign : Prediction.signedItems.accepts 2 [] = true := by decide +kernel
  have hlist : Prediction.signedItems.accepts 0 [4, 2, 1, 3] = true := by decide +kernel
  exact ⟨(nullable_and_first_of_accepts Prediction.wellFormed_signedItems (by decide) hsign).1 rfl,
    (nullable_and_first_of_accepts Prediction.wellFormed_signedItems (by decide) hlist).2.2 hrules 4
      rfl⟩

/-- Any number of letters `a`, each of them between two empty words. -/
def lettersBetween : Grammar where
  terminals := ⟨#["", "a"], by decide⟩
  nonterminals := ⟨#["letters"], by decide⟩
  semantics := SymbolTable.empty
  macros := SymbolTable.empty
  rules := #[some (.iter (.terminal 0) (.terminal 1))]
  emptyName := by decide

/-- The letter in between begins an accepted word, and the second analysis does not know of it. -/
theorem first_misses_right_part :
    ¬ ∀ g : Grammar, g.WellFormed → g.nonterminals.size ≤ 999 → ∀ (nt : Nat) (w : Word),
      g.accepts nt w = true → ∀ t, w.head? = some t →
        (Lookahead.terminal t).slot ∈ (compute g).first nt := by
  intro hcovers
  have hfirst := hcovers lettersBetween (by decide +kernel) (by decide) 0 [1]
    (by decide +kernel) 1 rfl
  exact absurd hfirst (by decide +kernel)

end Analysis

end RuleGrammar
