import RuleGrammar.Token

/-!
# Faults of a document

A document that cannot be read has one fault, with the stretch of text it concerns.

* `Fault.Cause`: what is wrong.
* `Fault.message`: the wording of a cause.
* `Fault.report`: two lines that name the file, the line and the column.
-/

namespace RuleGrammar

inductive Fault.Cause where
  | invalidChar (c : Char)
  | unclosedString
  -- a token, or the end of the text if there is none, where only other kinds are possible
  | unexpected (expected : List Token.Kind) (found : Option Token)
  | duplicateRule (name : String)
deriving DecidableEq, Repr

/-- A cause with the stretch of text it concerns. -/
structure Fault where
  cause : Fault.Cause
  span : Span
deriving DecidableEq, Repr

namespace Fault

def message (f : Fault) : String :=
  match f.cause with
  | .invalidChar c => "invalid character " ++ Text.quotedChar c
  | .unclosedString => "unclosed string"
  | .unexpected expected found =>
      "expected " ++ ", ".intercalate (expected.map Token.Kind.sign) ++ ", found " ++
        match found with
        | some token => token.shown
        | none => "EOF"
  | .duplicateRule name => "duplicate rule " ++ name

/-- The wording of a cause together with its place. -/
def located (f : Fault) : String :=
  f.message ++ " at " ++ Nat.repr f.span.start ++ ".." ++ Nat.repr f.span.stop

/-- The heading of a cause in a report. -/
def heading (f : Fault) : String :=
  match f.cause with
  | .invalidChar _ => "invalid character"
  | .unclosedString => "unclosed string"
  | .unexpected _ _ => "syntax error"
  | .duplicateRule _ => "duplicate rule"

/-- The line and the column, both from one, of a byte offset in a text.  A line break belongs to the
line it ends, and columns count characters. -/
def position (offset : Nat) (text : List Char) : Nat × Nat := go offset 1 1 text
where
  -- the position `offset` bytes further on from a given line and column
  go : Nat → Nat → Nat → List Char → Nat × Nat
    | _, line, column, [] => (line, column)
    | offset, line, column, c :: cs =>
        if offset = 0 then (line, column)
        else if c = '\n' then go (offset - c.utf8Size) (line + 1) 1 cs
        else go (offset - c.utf8Size) line (column + 1) cs

/-- The report of a fault in the text of a file. -/
def report (f : Fault) (path text : String) : String :=
  let (line, column) := position f.span.start text.toList
  f.heading ++ " at " ++ path ++ ":" ++ Nat.repr line ++ ":" ++ Nat.repr column ++ "\n" ++
    "message: " ++ f.message ++ "\n"

end Fault

end RuleGrammar
