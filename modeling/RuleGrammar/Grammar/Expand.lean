import RuleGrammar.Grammar

/-!
# Opened references

An opened reference stands for the rule it names.  Expansion puts that rule in its place, and again
for the opened references in it; a reference that comes up while its own rule is being put in place,
or that has no rule, stays as a plain reference.

* `Grammar.expand`: a tree without opened references.
* `Grammar.expandedRule?`: the expanded rule of a nonterminal.
* `Grammar.allOpened`: whether every reference that expansion would meet is opened and has a rule.
* `Grammar.Meets`: the references that expansion of a tree meets.

Both walks carry the path of the rules they are inside of.  A path never repeats a nonterminal and
holds only nonterminals with a rule, so it cannot be longer than the array of rules; that bounds the
depth.
-/

namespace RuleGrammar.Grammar

/-- Expansion inside the rules on `path`, at most `depth` rules deep. -/
def expandWithin (g : Grammar) : Nat → List Nat → Rule → Rule
  | 0, _ => Tree.substitute fun id => .reference id false
  | depth + 1, path => Tree.substitute fun id =>
      match g.rule? id with
      | some rule =>
          if path.contains id then .reference id false
          else g.expandWithin depth (id :: path) rule
      | none => .reference id false

/-- A tree with every opened reference replaced by the rule it names. -/
def expand (g : Grammar) (t : Rule) : Rule := g.expandWithin g.rules.size [] t

def expandedRule? (g : Grammar) (nt : Nat) : Option Rule := (g.rule? nt).map g.expand

/-- Whether all references met inside the rules on `path`, at most `depth` rules deep, are opened
and have a rule; a nonterminal on the path has been entered and is not entered again. -/
def openedWithin (g : Grammar) : Nat → List Nat → Rule → Bool
  | 0, path, t => t.mentions.all fun (id, opened) => opened && path.contains id
  | depth + 1, path, t => t.mentions.all fun (id, opened) =>
      opened && (path.contains id ||
        match g.rule? id with
        | some rule => g.openedWithin depth (id :: path) rule
        | none => false)

/-- Whether every reference that expansion of a tree meets is opened and has a rule. -/
def allOpened (g : Grammar) (t : Rule) : Bool := g.openedWithin g.rules.size [] t

/-- `g.Meets t id opened` says that a reference to `id` with the mark `opened` is met from the tree
`t` by going again and again from an opened reference to the references in its rule. -/
inductive Meets (g : Grammar) (t : Rule) : Nat → Bool → Prop where
  | here {id : Nat} {opened : Bool} (h : (id, opened) ∈ t.mentions) : Meets g t id opened
  | deeper {via id : Nat} {opened : Bool} {rule : Rule} (hvia : Meets g t via true)
      (hrule : g.rule? via = some rule) (h : (id, opened) ∈ rule.mentions) : Meets g t id opened

end RuleGrammar.Grammar
