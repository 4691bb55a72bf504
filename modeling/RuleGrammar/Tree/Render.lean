import RuleGrammar.Tree

/-!
# Rule text

A tree of names is written as rule text: `;` between alternatives, `,` in sequences, `#` in
iterations, with parentheses only where an operand binds less tightly than its place asks for.

* `RenderStyle`: which kinds of leaves are marked by braces, and whether operands are swapped.
* `Tree.render`: the text of a tree in a style.
* `Tree.text`: the plain text, which the reader of documents reads back.
* `terminalText`: a quoted terminal; the empty name is written `@`.
-/

namespace RuleGrammar

/-- How a tree is written: which leaves stand in braces, and in which order operands are printed. -/
structure RenderStyle where
  terminals : Bool := false
  references : Bool := false
  semantics : Bool := false
  reversed : Bool := false

/-! ### Quoted terminals -/

/-- The quote for a name: single, unless that would need an escape which double quotes spare. -/
def quoteFor (name : List Char) : Char :=
  if name.contains '\'' && !name.contains '"' then '"' else '\''

/-- A name with a backslash before every quote and every backslash. -/
def backslashed (quote : Char) : List Char → List Char
  | [] => []
  | c :: cs =>
      if c = quote ∨ c = '\\' then '\\' :: c :: backslashed quote cs
      else c :: backslashed quote cs

/-- A terminal as it is written: `@` for the empty name, otherwise the name between quotes. -/
def terminalText (name : String) : String :=
  if name = "" then "@"
  else
    let quote := quoteFor name.toList
    String.ofList (quote :: (backslashed quote name.toList ++ [quote]))

/-! ### Text of trees -/

def bracketed (condition : Bool) (s : String) : String :=
  if condition then "(" ++ s ++ ")" else s

def braced (condition : Bool) (s : String) : String :=
  if condition then "\x7b" ++ s ++ "\x7d" else s

/-- Two printed operands with their operator, in the order the style asks for. -/
def RenderStyle.pair (style : RenderStyle) (op left right : String) : String :=
  if style.reversed then right ++ op ++ left else left ++ op ++ right

namespace Tree

/-- How tightly a tree binds: alternatives, then sequences, then iterations, then leaves. -/
def tightness {α : Type} : Tree α → Nat
  | .alt _ _ => 0
  | .seq _ _ => 1
  | .iter _ _ => 2
  | _ => 3

/-- The text of a tree in a style. -/
def render (style : RenderStyle) : Expr → String
  | .terminal name => braced style.terminals (terminalText name)
  | .semantic name => braced style.semantics ("$" ++ name)
  | .reference name opened =>
      braced style.references ((if opened then "%" else "") ++ name)
  | .alt l r => style.pair " ; " (l.render style) (r.render style)
  | .seq l r =>
      style.pair " , " (bracketed (l.tightness < 1) (l.render style))
        (bracketed (r.tightness < 1) (r.render style))
  | .iter l r =>
      style.pair " # " (bracketed (l.tightness < 3) (l.render style))
        (bracketed (r.tightness < 3) (r.render style))

def text (t : Expr) : String := t.render {}

end Tree

end RuleGrammar
