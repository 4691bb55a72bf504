import RuleGrammar.Proofs.Revision.Useless

/-!
# The cap on passes is high enough

There are four analyses by repeated passes: three of a grammar, and the one for productive nonterminals.
Each of their marks reaches a further nonterminal with every pass until it is settled, however many
terminals there are and in whatever order the rules stand.  So none of the analyses makes more passes than
there are nonterminals, and one that finds nothing to do; with at most 999 nonterminals the cap never cuts
them short.

* `FixedPoint.analyses_settle_below_cap`: all four of them settle.
-/

namespace RuleGrammar.FixedPoint

open Analysis

/-- **The cap is never reached with at most 999 nonterminals.**  Each of the four analyses ends with a pass
that reports no change, after at most one pass more than there are nonterminals, and one more pass over
what it came to would change nothing. -/
theorem analyses_settle_below_cap (g : Grammar) (hsize : g.nonterminals.size ≤ 999) :
    (compute g).nullableRun.Settles (nullablePass (expandedRules g)) (g.nonterminals.size + 1) ∧
      (compute g).firstRun.Settles (firstPass (compute g).nullableRun.value (expandedRules g))
        (g.nonterminals.size + 1) ∧
      (compute g).followRun.Settles
        (followPass (compute g).nullableRun.value (compute g).firstRun.value (expandedRules g))
        (g.nonterminals.size + 1) ∧
      (Useless.productive g).Settles (Useless.productivePass g.ownedRules)
        (g.nonterminals.size + 1) :=
  ⟨settles_nullableRun hsize, settles_firstRun hsize, settles_followRun hsize,
    Useless.settles_productive hsize⟩

/-- Four nonterminals, each of which is known only when the next one is; the last one goes round to the
first. -/
def backwardChain : Grammar where
  terminals := ⟨#["", "c", "d"], by decide⟩
  nonterminals := ⟨#["one", "two", "three", "four"], by decide⟩
  semantics := SymbolTable.empty
  macros := SymbolTable.empty
  rules := #[
    some (.reference 1 false),
    some (.reference 2 false),
    some (.reference 3 false),
    some (.alt (.alt (.terminal 1) (.terminal 0)) (.seq (.terminal 2) (.reference 0 false)))]
  emptyName := by decide

/-- The chain takes as many passes as the bound allows. -/
theorem analyses_settle_below_cap_backwardChain :
    (compute backwardChain).nullableRun.passes = 5 ∧ (compute backwardChain).firstRun.passes = 5 ∧
      (Useless.productive backwardChain).passes = 5 ∧
      (compute backwardChain).nullableRun.converged = true ∧
      (compute backwardChain).firstRun.converged = true ∧
      (compute backwardChain).followRun.converged = true ∧
      (Useless.productive backwardChain).converged = true := by
  obtain ⟨hnullable, hfirst, hfollow, hproductive⟩ :=
    analyses_settle_below_cap backwardChain (by decide)
  exact ⟨by decide +kernel, by decide +kernel, by decide +kernel, hnullable.converged,
    hfirst.converged, hfollow.converged, hproductive.converged⟩

end RuleGrammar.FixedPoint
