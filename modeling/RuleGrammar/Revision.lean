import RuleGrammar.Grammar
import RuleGrammar.Journal

/-!
# Revising a grammar

* `Revised`: the grammar after a revision, what the revision found, and what it has to tell.
* `Revised.andThen`: one revision after another.
* `reviseEach`: a revision at each nonterminal of a list, in order.
-/

namespace RuleGrammar

/-- What a revision of a grammar came to. -/
structure Revised (α : Type) where
  grammar : Grammar
  result : α
  journal : List Journal.Entry := []

/-- A revision followed by another one that starts from what the first one came to. -/
def Revised.andThen {α β γ : Type} (r : Revised α) (next : Grammar → Revised β)
    (combine : α → β → γ) : Revised γ :=
  let s := next r.grammar
  ⟨s.grammar, combine r.result s.result, r.journal ++ s.journal⟩

/-- A revision at each nonterminal of a list, in order; what the revisions find is put together. -/
def reviseEach {α : Type} (revise : Grammar → Nat → Revised (List α)) (g : Grammar)
    (nts : List Nat) : Revised (List α) :=
  nts.foldl (fun r nt => r.andThen (fun g => revise g nt) (· ++ ·)) ⟨g, [], []⟩

end RuleGrammar
