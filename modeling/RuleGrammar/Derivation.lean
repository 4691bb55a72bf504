import RuleGrammar.Grammar

/-!
# Derivations

What words a tree stands for in a grammar.  A word is a list of terminal numbers.

* `Derives g t w`: the tree `t` derives the word `w` in the grammar `g`.
* `Grammar.Language g nt`: the words of a nonterminal.
-/

namespace RuleGrammar

/-- A word: a list of terminal numbers. -/
abbrev Word := List Nat

/-- `Derives g t w` says that the tree `t` derives the word `w` in the grammar `g`. -/
inductive Derives (g : Grammar) : Rule → Word → Prop where
  | empty : Derives g (.terminal 0) []
  | terminal {t : Nat} (h : t ≠ 0) : Derives g (.terminal t) [t]
  | semantic {s : Nat} : Derives g (.semantic s) []
  | reference {nt : Nat} {opened : Bool} {rule : Rule} {w : Word} (hnt : nt < g.nonterminals.size)
      (hrule : g.rule? nt = some rule) (h : Derives g rule w) : Derives g (.reference nt opened) w
  | seq {l r : Rule} {u v : Word} (hl : Derives g l u) (hr : Derives g r v) :
      Derives g (.seq l r) (u ++ v)
  | altLeft {l r : Rule} {w : Word} (h : Derives g l w) : Derives g (.alt l r) w
  | altRight {l r : Rule} {w : Word} (h : Derives g r w) : Derives g (.alt l r) w
  | iterOnce {l r : Rule} {w : Word} (h : Derives g l w) : Derives g (.iter l r) w
  | iterMore {l r : Rule} {u v w : Word} (hi : Derives g (.iter l r) u) (hr : Derives g r v)
      (hl : Derives g l w) : Derives g (.iter l r) (u ++ v ++ w)

/-- The words that a nonterminal derives. -/
def Grammar.Language (g : Grammar) (nt : Nat) (w : Word) : Prop := Derives g (.reference nt false) w

end RuleGrammar
