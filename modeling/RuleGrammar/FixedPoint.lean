import RuleGrammar.Journal

/-!
# Fixed points by repeated passes

A pass improves a value and says whether it changed anything.  Passes are repeated until one changes
nothing, but no more often than a cap allows.

* `FixedPoint.Outcome`: the value that was reached, and how.
* `FixedPoint.run`: repeated passes.
* `FixedPoint.maxPasses`: the cap for the analyses of a grammar.
-/

namespace RuleGrammar.FixedPoint

structure Outcome (σ : Type) where
  value : σ
  passes : Nat
  converged : Bool

/-- Repeats a pass until it changes nothing, at most `cap` times. -/
def run {σ : Type} (pass : σ → σ × Bool) : Nat → σ → Outcome σ
  | 0, s => ⟨s, 0, false⟩
  | cap + 1, s =>
      match pass s with
      | (next, false) => ⟨next, 1, true⟩
      | (next, true) =>
          let outcome := run pass cap next
          { outcome with passes := outcome.passes + 1 }

/-- The most passes that an analysis of a grammar makes. -/
def maxPasses : Nat := 1000

def Outcome.entry {σ : Type} (what : String) (o : Outcome σ) : Journal.Entry :=
  if o.converged then
    ⟨.debug, "ll", what ++ " converged after " ++ Nat.repr o.passes ++ " passes"⟩
  else
    ⟨.warn, "ll", what ++ " did not converge within " ++ Nat.repr maxPasses ++ " passes"⟩

end RuleGrammar.FixedPoint
