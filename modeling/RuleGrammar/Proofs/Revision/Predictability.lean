import RuleGrammar.Proofs.Contention
import RuleGrammar.Proofs.Expansion
import RuleGrammar.Proofs.LeastSolution
import RuleGrammar.Proofs.Revision.Branching

/-!
# Factored words are predicted by one letter

Once the rules that list words are factored, the first element of an alternative decides what it claims:
a letter claims itself, and the empty word claims what can follow its nonterminal.  References stand only
at the end of alternatives, so what follows a nonterminal is what follows the one that refers to it, and
in the end that is the end of the text.  As the alternatives of a rule begin with different elements, no
lookahead is claimed twice.  This asks for no number of passes: the sets hold too little rather than too
much.

* `Tree.claim`: the lookahead that the first element of an alternative stands for.
* `Tree.Branch.exists_claim`: what an alternative begins with, and that it claims nothing else.
* `Analysis.follow_of_branches`: what can follow the nonterminals of branching rules.
* `Factoring.factored_words_predictable`: disjoint first lookaheads, and no conflicts.
-/

namespace RuleGrammar

open Grammar Factoring

variable {g : Grammar} {a : Analysis} {t u rule : Rule} {nt m x : Nat} {nullable : Flags}
  {first : LookaheadSets} {context : LookaheadSet}

/-! ### Trees of letters -/

namespace Tree

/-- The lookahead that a terminal stands for; the empty one stands for the end. -/
def claim (a : Nat) : Lookahead := if a = 0 then .finish else .terminal a

theorem claim_injective {a b : Nat} (h : (claim a).slot = (claim b).slot) : a = b := by
  unfold claim at h
  split at h <;> split at h <;> simp only [Lookahead.slot] at h <;> omega

theorem Spelled.nullable_eq (h : t.Spelled) : t.nullable nullable = false := by
  induction t with
  | terminal a =>
      have hne : a ≠ 0 := h
      simpa [Tree.nullable] using hne
  | seq l r ihl _ => rw [Tree.nullable, ihl h.1, Bool.false_and]
  | _ => cases h

/-- A word begins with its first letter. -/
theorem Spelled.first_eq {a : Nat} (h : t.Spelled) (hhead : t.sequence.head? = some (.terminal a)) :
    t.first nullable first = .singleton (claim a).slot := by
  induction t with
  | terminal b =>
      cases hhead
      rw [Tree.first, if_neg h, claim, if_neg h]
  | seq l r ihl _ =>
      rw [Tree.sequence, List.head?_append_of_ne_nil _ (sequence_ne_nil l)] at hhead
      rw [Tree.first, h.1.nullable_eq, if_neg Bool.false_ne_true, ihl h.1 hhead]
  | _ => cases h

theorem Spelled.closed (h : t.Spelled) : t.Closed := by
  induction t with
  | terminal a => exact fun _ hmem => by cases hmem
  | seq l r ihl ihr => exact Closed.pair rfl (ihl h.1) (ihr h.2)
  | _ => cases h

/-- A word hands nothing down. -/
theorem Spelled.not_handed (h : t.Spelled) : ¬ Analysis.Handed nullable first t context m x := by
  induction t generalizing context with
  | terminal a => exact fun hhanded => hhanded
  | seq l r ihl ihr => exact fun hhanded => hhanded.elim (ihl h.1) (ihr h.2)
  | _ => cases h

/-! ### Branches -/

theorem Branch.closed (h : t.Branch) : t.Closed := by
  cases h with
  | empty => exact fun _ hmem => by cases hmem
  | word h => exact h.closed
  | onward h => exact Closed.pair rfl h.closed (by simp [Closed, mentions])

/-- A tree whose alternatives open nothing opens nothing. -/
theorem closed_of_alternatives (h : ∀ t ∈ rule.alternatives, t.Closed) : rule.Closed := by
  induction rule with
  | alt l r ihl ihr =>
      exact Closed.pair rfl (ihl fun t ht => h t (List.mem_append_left _ ht))
        (ihr fun t ht => h t (List.mem_append_right _ ht))
  | _ => exact h _ (List.mem_singleton_self _)

/-- **What a branch claims is decided by its first element**, if only the end can follow. -/
theorem Branch.exists_claim (h : t.Branch) (nullable : Flags) (first : LookaheadSets) :
    ∃ k, t.sequence.head? = some (.terminal k) ∧
    ∀ x, x ∈ t.first nullable first ∨
      t.nullable nullable = true ∧ x = Lookahead.finish.slot → x = (claim k).slot := by
  cases h with
  | empty =>
      refine ⟨0, rfl, fun x hx => ?_⟩
      rcases hx with hx | hx
      · exact absurd hx (NumberSet.not_mem_empty x)
      · exact hx.2
  | word h =>
      obtain ⟨k, _, hhead⟩ := h.exists_letter
      refine ⟨k, hhead, fun x hx => ?_⟩
      rw [h.nullable_eq, h.first_eq hhead, NumberSet.mem_singleton] at hx
      exact hx.resolve_right fun hnull => Bool.false_ne_true hnull.1
  | onward h =>
      obtain ⟨k, _, hhead⟩ := h.exists_letter
      refine ⟨k, ?_, fun x hx => ?_⟩
      · rw [Tree.sequence, List.head?_append_of_ne_nil _ (sequence_ne_nil _)]
        exact hhead
      · rw [Tree.nullable, Tree.first, h.nullable_eq, Bool.false_and, if_neg Bool.false_ne_true,
          h.first_eq hhead, NumberSet.mem_singleton] at hx
        exact hx.resolve_right fun hnull => Bool.false_ne_true hnull.1

/-- A branch hands down what can follow it. -/
theorem Branch.mem_of_handed (h : t.Branch) (hx : Analysis.Handed nullable first t context m x) :
    x ∈ context := by
  cases h with
  | empty => cases hx
  | word h => exact absurd hx h.not_handed
  | onward h =>
      rcases hx with hx | hx
      · exact absurd hx h.not_handed
      · exact hx.2

/-- What the alternatives of a tree hand down is in the context. -/
theorem mem_of_handed (h : ∀ t ∈ rule.alternatives, t.Branch)
    (hx : Analysis.Handed nullable first rule context m x) : x ∈ context := by
  induction rule with
  | alt l r ihl ihr =>
      rcases hx with hx | hx
      · exact ihl (fun t ht => h t (List.mem_append_left _ ht)) hx
      · exact ihr (fun t ht => h t (List.mem_append_right _ ht)) hx
  | _ => exact (h _ (List.mem_singleton_self _)).mem_of_handed hx

end Tree

/-! ### Grammars -/

namespace Factoring

open RuleGrammar.Tree

/-- Rules of branches are expanded to themselves. -/
theorem expandedRule?_of_branched (h : ∀ nt, Branched g nt) (nt : Nat) :
    g.expandedRule? nt = g.rule? nt := by
  rw [expandedRule?]
  cases hrule : g.rule? nt with
  | none => rfl
  | some rule =>
      have hclosed : rule.Closed :=
        closed_of_alternatives fun t ht => ((h nt).branches rule hrule t ht).closed
      rw [Option.map_some, expand_of_closed hclosed]

/-- **Only the end follows the nonterminals of branching rules.** -/
theorem follow_of_branched (h : ∀ nt, Branched g nt) (hx : x ∈ (Analysis.compute g).follow nt) :
    x = Lookahead.finish.slot := by
  refine Analysis.follow_induction (Q := fun _ x => x = Lookahead.finish.slot) (fun _ => rfl) ?_ hx
  intro nt rule context hmem hcontext m x _ hhanded
  have hrule := (Analysis.mem_expandedRules.1 hmem).2
  rw [expandedRule?_of_branched h] at hrule
  exact hcontext x (mem_of_handed ((h nt).branches rule hrule) hhanded)

/-- Alternatives that claim the same lookahead begin with the same text. -/
theorem firstText_eq_of_claims (ht : t.Branch) (hu : u.Branch)
    (hxt : x ∈ t.first nullable first ∨ t.nullable nullable = true ∧ x = Lookahead.finish.slot)
    (hxu : x ∈ u.first nullable first ∨ u.nullable nullable = true ∧ x = Lookahead.finish.slot) :
    firstText g t = firstText g u := by
  obtain ⟨k, hk, hclaim⟩ := ht.exists_claim nullable first
  obtain ⟨j, hj, hclaim'⟩ := hu.exists_claim nullable first
  have hsame : k = j := claim_injective ((hclaim x hxt).symm.trans (hclaim' x hxu))
  rw [firstText, firstText, hk, hj, hsame]

/-- The alternatives of branching rules begin with disjoint sets of lookaheads. -/
theorem disjoint_of_branched (h : Branched g nt) (hrule : g.rule? nt = some rule) (a : Analysis) :
    rule.alternatives.Pairwise fun t u => (a.firstOf t).disjoint (a.firstOf u) = true := by
  refine (h.separated rule hrule).imp_of_mem fun {t u} ht hu hne => ?_
  rw [NumberSet.disjoint_iff]
  intro x hxt hxu
  exact hne (firstText_eq_of_claims (h.branches rule hrule t ht) (h.branches rule hrule u hu)
    (Or.inl hxt) (Or.inl hxu))

/-- **Branching rules have no conflicts.** -/
theorem isLL1_of_branched (h : ∀ nt, Branched g nt) : (Prediction.build g).isLL1 = true := by
  unfold Prediction.build
  rw [Prediction.isLL1_iff]
  intro nt lookahead
  rw [Prediction.length_claimants_le_one_iff]
  intro i j hij hi hj
  obtain ⟨_, rule, t, hrule, ht, hclaim⟩ := Prediction.mem_getD_predictionSets.1 hi
  obtain ⟨_, rule', u, hrule', hu, hclaim'⟩ := Prediction.mem_getD_predictionSets.1 hj
  rw [expandedRule?_of_branched h] at hrule hrule'
  rw [hrule] at hrule'
  cases hrule'
  obtain ⟨hi, rfl⟩ := List.getElem?_eq_some_iff.1 ht
  obtain ⟨hj, rfl⟩ := List.getElem?_eq_some_iff.1 hu
  have hbranches := (h nt).branches rule hrule
  apply List.pairwise_iff_getElem.1 ((h nt).separated rule hrule) i j hi hj hij
  exact firstText_eq_of_claims (hbranches _ (List.getElem_mem hi)) (hbranches _ (List.getElem_mem hj))
    (hclaim.imp_right fun hnull => ⟨hnull.1, follow_of_branched h hnull.2⟩)
    (hclaim'.imp_right fun hnull => ⟨hnull.1, follow_of_branched h hnull.2⟩)

/-- **Factored words are predicted by one letter.**  If every rule of a well-formed grammar lists words,
then after factoring the alternatives of every rule begin with disjoint sets of lookaheads, and the
prediction table has no conflicts. -/
theorem factored_words_predictable (g : Grammar) (hg : g.WellFormed)
    (hwords : ∀ nt rule, g.rule? nt = some rule → rule.ListsWords) :
    (∀ nt rule, (factorAll g).grammar.rule? nt = some rule →
      rule.alternatives.Pairwise fun t u =>
        ((Analysis.compute (factorAll g).grammar).firstOf t).disjoint
          ((Analysis.compute (factorAll g).grammar).firstOf u) = true) ∧
    (Prediction.build (factorAll g).grammar).isLL1 = true := by
  obtain ⟨_, hbranched⟩ := branched_factorAll hg hwords
  exact ⟨fun nt rule hrule => disjoint_of_branched (hbranched nt) hrule _, isLL1_of_branched hbranched⟩

/-- Two rules that list words.  In the first one a word begins another one, a word stands twice, and
sequences are nested both ways; the second one has the name that a new nonterminal would get, and one of
its letters is the sign for the empty word. -/
def wordLists : Grammar where
  terminals := ⟨#["", "a", "b", "@", "'"], by decide⟩
  nonterminals := ⟨#["W", "W_fac"], by decide⟩
  semantics := SymbolTable.empty
  macros := SymbolTable.empty
  rules := #[
    some (.alt (.alt (.seq (.terminal 1) (.seq (.terminal 2) (.terminal 3))) (.terminal 1))
      (.alt (.alt (.seq (.terminal 1) (.terminal 2)) (.seq (.terminal 1) (.terminal 2)))
        (.alt (.seq (.terminal 3) (.terminal 1)) (.seq (.terminal 4) (.terminal 4))))),
    some (.alt (.seq (.terminal 3) (.terminal 3)) (.seq (.terminal 3) (.terminal 4)))]
  emptyName := by decide

theorem listsWords_wordLists : ∀ nt rule, wordLists.rule? nt = some rule → rule.ListsWords := by
  intro nt rule hrule
  match nt with
  | 0 | 1 =>
      cases hrule
      simp [ListsWords, Spelled]
  | nt + 2 => cases hrule

/-- Before factoring both rules have conflicts; three nonterminals are made, one of them in the rule of
another, and there is no conflict left. -/
theorem factored_words_predictable_wordLists : wordLists.WellFormed ∧
    (Prediction.build wordLists).isLL1 = false ∧
    (factorAll wordLists).result.length = 3 ∧
    (factorAll wordLists).grammar.rule? 2 =
      some (.alt (.seq (.terminal 2) (.reference 3 false)) (.terminal 0)) ∧
    (Prediction.build (factorAll wordLists).grammar).isLL1 = true := by
  have hwellFormed : wordLists.WellFormed := by decide +kernel
  exact ⟨hwellFormed, by decide +kernel, by decide +kernel, by decide +kernel,
    (factored_words_predictable wordLists hwellFormed listsWords_wordLists).2⟩

end Factoring

end RuleGrammar
