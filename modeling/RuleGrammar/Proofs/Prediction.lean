import RuleGrammar.Proofs.Contention
import RuleGrammar.Proofs.Lookahead
import RuleGrammar.Proofs.Recognition
import RuleGrammar.Proofs.WellFormed

/-!
# Predictions are sound

A cell of a prediction table that was claimed is filled, and without conflicts it keeps the only
alternative that claimed it.  Since every alternative that a parse tree takes claims the lookahead at its
place, a predictive reader that follows a table without conflicts never goes astray.

* `claimed_iff`: the claims of an alternative by its number.
* `get?_of_claimed`: the cells of a table.
* `claimed_of_mem_conflicts`: a conflict is between two alternatives that claim its lookahead.
* `predicts_every_expansion`: the table predicts every alternative that a parse tree takes.
-/

namespace RuleGrammar.Prediction

/-! ### Tables -/

variable {g : Grammar} {a : Analysis}

theorem claimed_iff {nt k : Nat} {lookahead : Lookahead} (hnt : nt < g.nonterminals.size) :
    Claimed g a nt k lookahead ↔ k ∈ claimants (predictionSets g a nt) lookahead := by
  rw [mem_claimants_iff_getElem?, predictionSets, if_pos hnt, List.getElem?_map, Claimed]
  cases (alternativesOf g nt)[k]? <;> simp

/-- A cell that an alternative claims is filled, and without conflicts it is filled with that one. -/
theorem get?_of_claimed {nt k : Nat} {lookahead : Lookahead} (hnt : nt < g.nonterminals.size)
    (h : Claimed g a nt k lookahead) :
    ((ofAnalysis g a).get? nt lookahead).isSome ∧
      ((ofAnalysis g a).isLL1 = true → (ofAnalysis g a).get? nt lookahead = some k) := by
  have hmem := (claimed_iff hnt).1 h
  rw [get?_ofAnalysis]
  constructor
  · exact List.getLast?_isSome.2 (List.ne_nil_of_mem hmem)
  · intro hll
    -- the only claimant is the last one
    have hone : (claimants (predictionSets g a nt) lookahead).length = 1 :=
      Nat.le_antisymm (isLL1_iff.1 hll nt lookahead) (List.length_pos_of_mem hmem)
    obtain ⟨only, honly⟩ := List.length_eq_one_iff.1 hone
    rw [honly] at hmem ⊢
    rw [List.mem_singleton.1 hmem]
    rfl

/-- A conflict is between two different alternatives that claim its lookahead. -/
theorem claimed_of_mem_conflicts {c : Conflict} (hc : c ∈ (ofAnalysis g a).conflicts) :
    c.earlier ≠ c.later ∧ Claimed g a c.nonterminal c.earlier c.lookahead ∧
      Claimed g a c.nonterminal c.later c.lookahead := by
  obtain ⟨hnt, hlt, hearlier, hlater⟩ := mem_claimants_of_mem_conflicts hc
  exact ⟨Nat.ne_of_lt hlt, (claimed_iff hnt).2 hearlier, (claimed_iff hnt).2 hlater⟩

/-- **Predictions are sound.**  Where no left part of an iteration derives the empty word, the table of
a grammar has an entry for every alternative that a parse tree of the start symbol takes, under the
lookahead at its place, and without conflicts that entry is the alternative itself. -/
theorem predicts_every_expansion (hg : g.WellFormed) (hsize : g.nonterminals.size ≤ 999)
    (hrules : ∀ nt rule, g.expandedRule? nt = some rule → g.Advances rule) {start : Nat}
    (hstart : g.start? = some start) (p : ParseTree g.tableExpandedRule? (.reference start false))
    {nt k i : Nat} (hmem : (nt, k, i) ∈ p.expansions 0) :
    ((build g).get? nt (Word.lookaheadAt p.yield i)).isSome ∧
      ((build g).isLL1 = true → (build g).get? nt (Word.lookaheadAt p.yield i) = some k) := by
  have ha := Analysis.saturated_compute hsize
  obtain ⟨rfl, hpos⟩ := Grammar.start?_eq_some_iff.1 hstart
  have hclaim := p.claimed_of_mem_expansions hg ha hrules [] [] ((Analysis.compute g).follow 0)
    trivial (fun m x _ hx => by rw [hx.1]; exact hx.2) (ha.finish hpos) nt k i hmem
  rw [List.nil_append, List.append_nil] at hclaim
  exact get?_of_claimed (p.lt_of_mem_expansions hmem) hclaim

/-- Items between commas: a letter `a` with or without a sign, or a letter `b`.  The sign is opened. -/
def signedItems : Grammar where
  terminals := ⟨#["", ",", "a", "b", "-"], by decide⟩
  nonterminals := ⟨#["list", "item", "sign"], by decide⟩
  semantics := SymbolTable.empty
  macros := ⟨#["sign"], by decide⟩
  rules := #[some (.iter (.reference 1 false) (.terminal 1)),
    some (.alt (.seq (.reference 2 true) (.terminal 2)) (.terminal 3)),
    some (.alt (.terminal 4) (.terminal 0))]
  emptyName := by decide

theorem wellFormed_signedItems : signedItems.WellFormed where
  owned {nt rule} h := by
    match nt with
    | 0 | 1 | 2 => decide
    | n + 3 => cases h
  covered {nt rule} h := by
    match nt with
    | 0 => cases h; decide
    | 1 => cases h; decide
    | 2 => cases h; decide
    | n + 3 => cases h

theorem advances_signedItems {nt : Nat} {rule : Rule} (h : signedItems.expandedRule? nt = some rule) :
    signedItems.Advances rule := by
  match nt with
  | 0 =>
      cases h
      refine ⟨fun hder => ?_, trivial, trivial⟩
      exact absurd ((signedItems.recognizes_iff _ []).2 hder) (by decide +kernel)
  | 1 => cases h; exact ⟨⟨⟨trivial, trivial⟩, trivial⟩, trivial⟩
  | 2 => cases h; exact ⟨trivial, trivial⟩
  | n + 3 => cases h

def signedItemsTree : ParseTree signedItems.tableExpandedRule? (.reference 0 false) :=
  have hlist : signedItems.tableExpandedRule? 0
      = some (.iter (.reference 1 false) (.terminal 1)) := by decide +kernel
  have hitem : signedItems.tableExpandedRule? 1
      = some (.alt (.seq (.alt (.terminal 4) (.terminal 0)) (.terminal 2)) (.terminal 3)) := by
    decide +kernel
  .reference 0 false hlist
    (.iterMore
      (.iterOnce _ (.reference 1 false hitem (.altRight _ (.terminal 3 (by decide)))))
      (.terminal 1 (by decide))
      (.reference 1 false hitem
        (.altLeft _ (.seq (.altLeft _ (.terminal 4 (by decide))) (.terminal 2 (by decide))))))

/-- The second item begins with a sign at position two, and this predicts its first alternative. -/
theorem predicts_signedItems : (1, 0, 2) ∈ signedItemsTree.expansions 0 ∧
    (build signedItems).get? 1 (.terminal 4) = some 0 := by
  have hmem : (1, 0, 2) ∈ signedItemsTree.expansions 0 := by decide
  refine ⟨hmem, ?_⟩
  exact (predicts_every_expansion wellFormed_signedItems (by decide)
    (fun _ _ h => advances_signedItems h) rfl signedItemsTree hmem).2 (by decide +kernel)

end RuleGrammar.Prediction
