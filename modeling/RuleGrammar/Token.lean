import RuleGrammar.Text.Quoted

/-!
# Tokens of rule documents

* `Span`: a stretch of a text, in bytes.
* `Token.Kind`: the fifteen kinds of tokens, with the label that names them when they are found and
  the sign that names them when they are expected.
* `Token`: a kind, the text that was read and its span.
-/

namespace RuleGrammar

/-- A stretch of a text by the byte offsets of its two ends. -/
structure Span where
  start : Nat
  stop : Nat
deriving DecidableEq, Repr, Inhabited

namespace Token

inductive Kind where
  | ident
  | string
  | dollar
  | percent
  | colon
  | dot
  | comma
  | semicolon
  -- the sign of an iteration, `#` or `*`
  | iterate
  | leftParen
  | rightParen
  | leftBracket
  | rightBracket
  -- the sign of the empty word, `@` or `&`
  | epsilon
  | finish
deriving DecidableEq, Repr, Inhabited

/-- The label of a kind in a message about a token that was found. -/
def Kind.label : Kind → String
  | .ident => "Ident"
  | .string => "String"
  | .dollar => "Dollar"
  | .percent => "Percent"
  | .colon => "Colon"
  | .dot => "Dot"
  | .comma => "Comma"
  | .semicolon => "Semicolon"
  | .iterate => "Iterate"
  | .leftParen => "LParen"
  | .rightParen => "RParen"
  | .leftBracket => "LBracket"
  | .rightBracket => "RBracket"
  | .epsilon => "Epsilon"
  | .finish => "End"

/-- The sign of a kind in a message about tokens that were expected. -/
def Kind.sign : Kind → String
  | .ident => "IDENT"
  | .string => "STRING"
  | .dollar => "\"$\""
  | .percent => "\"%\""
  | .colon => "\":\""
  | .dot => "\".\""
  | .comma => "\",\""
  | .semicolon => "\";\""
  | .iterate => "\"#\""
  | .leftParen => "\"(\""
  | .rightParen => "\")\""
  | .leftBracket => "\"[\""
  | .rightBracket => "\"]\""
  | .epsilon => "\"@\""
  | .finish => "\"EOGram!\""

end Token

/-- A token: what kind it is, the text it was read from and where that text stands. -/
structure Token where
  kind : Token.Kind
  text : String
  span : Span
deriving DecidableEq, Repr, Inhabited

def Token.shown (t : Token) : String :=
  "<" ++ t.kind.label ++ ": " ++ Text.quoted t.text ++ ">"

end RuleGrammar
