import RuleGrammar.Proofs.Recognition
import RuleGrammar.Proofs.Rereading

/-!
# Recognition after a revision

A revision that keeps every language leaves the answers of the recognizer as they are, for every
nonterminal that was there before and every word.

* `Grammar.Keeps.accepts_eq`: the answers after a revision that keeps every language.
* `LeftRecursion.accepts_after_elimination`: left recursion, for any well-formed grammar.
* `Factoring.accepts_after_factoring`: left factoring, for the grammars that come up.
-/

namespace RuleGrammar

open Grammar

theorem Grammar.Keeps.accepts_eq {g g' : Grammar} (h : g.Keeps g') {nt : Nat}
    (hnt : nt < g.nonterminals.size) (w : Word) : g'.accepts nt w = g.accepts nt w := by
  rw [Bool.eq_iff_iff, accepts_iff, accepts_iff]
  exact h.language hnt

/-! ### Left recursion -/

namespace LeftRecursion

/-- **Eliminating left recursion, from one rule or from all, changes no answer of the recognizer.** -/
theorem accepts_after_elimination (g : Grammar) (hg : g.WellFormed) (nt m : Nat)
    (hm : m < g.nonterminals.size) (w : Word) :
    (eliminate g nt).grammar.accepts m w = g.accepts m w ∧
      (eliminateAll g).grammar.accepts m w = g.accepts m w :=
  ⟨(keeps_eliminate hg nt).accepts_eq hm w, (keeps_eliminateAll hg).2.accepts_eq hm w⟩

/-- A rule with an opened reference to itself in front of a tail that refers to it again, itself as an
alternative, a tail with the empty word, and the empty word and the rule itself among its bases. -/
def tangled : Grammar where
  terminals := ⟨#["", "a", "p"], by decide⟩
  nonterminals := ⟨#["E", "T"], by decide⟩
  semantics := SymbolTable.empty
  macros := ⟨#["E"], by decide⟩
  rules := #[
    some (.alt (.alt (.alt (.alt (.seq (.reference 0 true) (.seq (.terminal 1) (.reference 0 false)))
      (.reference 0 false)) (.seq (.reference 0 false) (.reference 1 false))) (.terminal 0))
      (.seq (.reference 1 false) (.reference 0 false))),
    some (.alt (.terminal 2) (.terminal 0))]
  emptyName := by decide

/-- The tangled rule gets a tail, and its words stay what they were. -/
theorem accepts_after_elimination_tangled : tangled.WellFormed ∧
    (eliminate tangled 0).result = some 2 ∧
    (eliminate tangled 0).grammar.accepts 0 [2, 1, 2] = true ∧
    (eliminateAll tangled).grammar.accepts 0 [1, 1] = true ∧
    ∀ w, (eliminate tangled 0).grammar.accepts 0 w = tangled.accepts 0 w ∧
      (eliminateAll tangled).grammar.accepts 0 w = tangled.accepts 0 w := by
  have hwellFormed : tangled.WellFormed := by decide +kernel
  have hword : tangled.accepts 0 [2, 1, 2] = true := by decide +kernel
  have hrepeat : tangled.accepts 0 [1, 1] = true := by decide +kernel
  have hsame := accepts_after_elimination tangled hwellFormed 0 0 (by decide)
  refine ⟨hwellFormed, by decide +kernel, ?_, ?_, hsame⟩
  · rw [(hsame [2, 1, 2]).1]
    exact hword
  · rw [(hsame [1, 1]).2]
    exact hrepeat

end LeftRecursion

/-! ### Left factoring -/

namespace Factoring

/-- **Left factoring, of one rule or of all, changes no answer of the recognizer.**  Elements of
alternatives are compared by their texts, which can be read back in every grammar that comes up. -/
theorem accepts_after_factoring (g : Grammar) (hg : g.Obtained) (nt m : Nat)
    (hm : m < g.nonterminals.size) (w : Word) :
    (factor g nt).grammar.accepts m w = g.accepts m w ∧
      (factorAll g).grammar.accepts m w = g.accepts m w :=
  ⟨(keeps_factorWithin _ nt hg.orderly).2.accepts_eq hm w,
    (keeps_factorAll hg.orderly).2.accepts_eq hm w⟩

/-- Three alternatives that begin with trees of the same text, two of which have the same texts
throughout, and a left-recursive one. -/
def twinsText : String :=
  "S : S , 'p' ; ('a' ; ('b' ; 'c')) , 'd' ; (('a' ; 'b') ; 'c') , 'e' , S ; ('a' ; 'b' ; 'c') , 'd' .\nEOGram!"

def twins : Grammar where
  terminals := ⟨#["", "p", "a", "b", "c", "d", "e"], by decide⟩
  nonterminals := ⟨#["S"], by decide⟩
  semantics := SymbolTable.empty
  macros := SymbolTable.empty
  rules := #[some (.alt (.alt (.alt
    (.seq (.reference 0 false) (.terminal 1))
    (.seq (.alt (.terminal 2) (.alt (.terminal 3) (.terminal 4))) (.terminal 5)))
    (.seq (.seq (.alt (.alt (.terminal 2) (.terminal 3)) (.terminal 4)) (.terminal 6))
      (.reference 0 false)))
    (.seq (.alt (.alt (.terminal 2) (.terminal 3)) (.terminal 4)) (.terminal 5)))]
  emptyName := by decide

def straightTwins : Grammar := (LeftRecursion.eliminate twins 0).grammar

theorem obtained_straightTwins : straightTwins.Obtained := by
  have hbuild : build twinsText = .ok twins := build_eq_ok_of_toOption (by decide +kernel)
  exact .eliminate (.build hbuild) 0

/-- The alternatives are merged by their texts, and their words stay what they were. -/
theorem accepts_after_factoring_twins : straightTwins.Obtained ∧
    (factor straightTwins 0).result = [2] ∧
    (factor straightTwins 0).grammar.rule? 0 = some (.seq
      (.alt (.terminal 2) (.alt (.terminal 3) (.terminal 4))) (.reference 2 false)) ∧
    (factor straightTwins 0).grammar.accepts 0 [3, 6, 2, 5] = true ∧
    ∀ w, (factor straightTwins 0).grammar.accepts 0 w = straightTwins.accepts 0 w ∧
      (factorAll straightTwins).grammar.accepts 0 w = straightTwins.accepts 0 w := by
  have hword : straightTwins.accepts 0 [3, 6, 2, 5] = true := by decide +kernel
  have hsame := accepts_after_factoring straightTwins obtained_straightTwins 0 0 (by decide +kernel)
  refine ⟨obtained_straightTwins, by decide +kernel, by decide +kernel, ?_, hsame⟩
  rw [(hsame [3, 6, 2, 5]).1]
  exact hword

end Factoring

end RuleGrammar
