/-!
# Rule trees

The right-hand side of a rule is a tree: leaves are terminals, semantic actions and references to
nonterminals, and inner nodes are sequences, alternatives and iterations, where `iter l r` stands
for `l`, then any number of rounds of `r` and `l` again.  Leaves carry symbols of any type, so that
the same tree is read and written with names and worked on with numbers.

* `Tree`, with `Rule` over numbers and `Expr` over names.
* `alternatives`, `sequence`: the operands of the topmost chain, left to right.
* `alternation`, `concatenation`: a chain nested to the left, built from its operands.
* `join`: a sequence that drops an empty operand.
* `leftNested`: the tree with every chain nested to the left.
* `mentions`, `references`: the references of a tree, left to right.
* `substitute`: the tree with other trees in the place of its opened references.
* `rename`: the tree with other symbols in the same places.
-/

namespace RuleGrammar

/-- The right-hand side of a rule over symbols of type `α`. -/
inductive Tree (α : Type) where
  | terminal (symbol : α)
  | semantic (symbol : α)
  | reference (symbol : α) (opened : Bool)
  | seq (left right : Tree α)
  | alt (left right : Tree α)
  | iter (left right : Tree α)
deriving DecidableEq, Repr, Inhabited

/-- A right-hand side whose symbols are numbers of symbol tables. -/
abbrev Rule := Tree Nat

/-- A right-hand side whose symbols are names. -/
abbrev Expr := Tree String

namespace Tree

variable {α β : Type}

/-! ### The empty word -/

/-- The tree of the empty word: terminal number zero. -/
def epsilon : Rule := .terminal 0

def isEpsilon : Rule → Bool
  | .terminal 0 => true
  | _ => false

/-- One tree after the other, where the tree of the empty word leaves no trace. -/
def join (left right : Rule) : Rule :=
  if left.isEpsilon then right
  else if right.isEpsilon then left
  else .seq left right

/-! ### Chains -/

/-- The operands of the topmost chain of alternatives, left to right. -/
def alternatives : Tree α → List (Tree α)
  | .alt l r => l.alternatives ++ r.alternatives
  | t => [t]

/-- The operands of the topmost chain of sequences, left to right. -/
def sequence : Tree α → List (Tree α)
  | .seq l r => l.sequence ++ r.sequence
  | t => [t]

/-- The alternatives of a list, nested to the left. -/
def alternation : List (Tree α) → Option (Tree α)
  | [] => none
  | t :: ts => some (ts.foldl .alt t)

def concatenation : List (Tree α) → Option (Tree α)
  | [] => none
  | t :: ts => some (ts.foldl .seq t)

/-- The sequence of a tree and a tree whose topmost chain is nested to the left. -/
def seqOnto (left : Tree α) : Tree α → Tree α
  | .seq l r => .seq (seqOnto left l) r
  | t => .seq left t

/-- The alternative of a tree and a tree whose topmost chain is nested to the left. -/
def altOnto (left : Tree α) : Tree α → Tree α
  | .alt l r => .alt (altOnto left l) r
  | t => .alt left t

/-- The tree with every chain of sequences and every chain of alternatives nested to the left. -/
def leftNested : Tree α → Tree α
  | .seq l r => seqOnto l.leftNested r.leftNested
  | .alt l r => altOnto l.leftNested r.leftNested
  | .iter l r => .iter l.leftNested r.leftNested
  | t => t

/-! ### Leaves -/

def size : Tree α → Nat
  | .seq l r | .alt l r | .iter l r => l.size + r.size
  | _ => 1

/-- The references, left to right, as often as they occur, with their marks of being opened. -/
def mentions : Tree α → List (α × Bool)
  | .reference a opened => [(a, opened)]
  | .seq l r | .alt l r | .iter l r => l.mentions ++ r.mentions
  | _ => []

def references (t : Tree α) : List α := t.mentions.map Prod.fst

/-- The referenced symbols in the order of their first occurrence. -/
def nonterminals [BEq α] (t : Tree α) : List α := t.references.eraseDups

/-- The tree with every opened reference replaced by what `inline` gives for it. -/
def substitute (inline : α → Tree α) : Tree α → Tree α
  | .reference a true => inline a
  | .seq l r => .seq (l.substitute inline) (r.substitute inline)
  | .alt l r => .alt (l.substitute inline) (r.substitute inline)
  | .iter l r => .iter (l.substitute inline) (r.substitute inline)
  | t => t

/-- The tree with other symbols in the same places. -/
def rename (terminal semantic nonterminal : α → β) : Tree α → Tree β
  | .terminal a => .terminal (terminal a)
  | .semantic a => .semantic (semantic a)
  | .reference a opened => .reference (nonterminal a) opened
  | .seq l r =>
      .seq (l.rename terminal semantic nonterminal) (r.rename terminal semantic nonterminal)
  | .alt l r =>
      .alt (l.rename terminal semantic nonterminal) (r.rename terminal semantic nonterminal)
  | .iter l r =>
      .iter (l.rename terminal semantic nonterminal) (r.rename terminal semantic nonterminal)

/-! ### Chains and sizes -/

theorem size_pos (t : Tree α) : 0 < t.size := by
  induction t with
  | seq l r ihl ihr | alt l r ihl ihr | iter l r ihl ihr => rw [size]; omega
  | _ => simp [size]

theorem alternatives_ne_nil (t : Tree α) : t.alternatives ≠ [] := by
  induction t with
  | alt l r ihl ihr => simp [alternatives, ihl]
  | _ => simp [alternatives]

theorem sequence_ne_nil (t : Tree α) : t.sequence ≠ [] := by
  induction t with
  | seq l r ihl ihr => simp [sequence, ihl]
  | _ => simp [sequence]

end Tree

end RuleGrammar
