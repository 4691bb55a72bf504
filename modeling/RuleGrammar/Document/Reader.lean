import RuleGrammar.Document
import RuleGrammar.Token.Lexer

/-!
# Reading documents

The reader takes one token at a time.  Between two tokens it is at a `Place`: before a record, behind
a record's name, inside a record, or behind the mark that ends the document.  Inside a record it
keeps, for each construct that is still open, the operands that wait for their right partner.

* `Level`: the waiting operands of one open construct; `#` binds tighter than `,`, and `,` tighter
  than `;`, and each of them groups to the left.
* `Place.expected`: the kinds of tokens that could come next.
* `Place.step`: what one token does.
* `Document.read`: the records of a text, or its first fault.
-/

namespace RuleGrammar

open Token (Kind)

namespace Reader

/-! ### Open constructs -/

/-- The operands of an open construct that wait for their right partner. -/
structure Level where
  alternative : Option Expr := none
  sequence : Option Expr := none
  iteration : Option Expr := none
deriving DecidableEq, Repr, Inhabited

/-- A waiting operand joined with its right partner. -/
def joined (node : Expr → Expr → Expr) : Option Expr → Expr → Expr
  | none, e => e
  | some left, e => node left e

namespace Level

def iterationWith (l : Level) (e : Expr) : Expr := joined .iter l.iteration e

def sequenceWith (l : Level) (e : Expr) : Expr := joined .seq l.sequence (l.iterationWith e)

def alternativeWith (l : Level) (e : Expr) : Expr := joined .alt l.alternative (l.sequenceWith e)

end Level

/-- The two kinds of brackets: round ones group, square ones make their content optional. -/
inductive Bracket where
  | round
  | square
deriving DecidableEq, Repr

namespace Bracket

def closer : Bracket → Kind
  | .round => .rightParen
  | .square => .rightBracket

/-- What a bracket around an expression means. -/
def around : Bracket → Expr → Expr
  | .round, e => e
  | .square, e => .optional e

end Bracket

/-- The open constructs of a record: the innermost, and the brackets around it, from the inside out,
each with the construct it stands in. -/
structure Nest where
  level : Level := {}
  brackets : List (Bracket × Level) := []
deriving DecidableEq, Repr, Inhabited

/-- The token that closes the innermost construct: its bracket, or the dot of the record. -/
def Nest.closer (nest : Nest) : Kind :=
  match nest.brackets with
  | [] => .dot
  | (bracket, _) :: _ => bracket.closer

/-! ### Places -/

/-- What can come next inside a record. -/
inductive Inside where
  | operand
  | action
  | opened
  | operator (e : Expr)
deriving DecidableEq, Repr

/-- A place between two tokens of a document. -/
inductive Place where
  | between
  | named (name : String) (span : Span)
  | inside (name : String) (span : Span) (nest : Nest) (state : Inside)
  | finished
deriving DecidableEq, Repr

/-- The kinds that can begin an operand. -/
def operandKinds : List Kind :=
  [.dollar, .percent, .leftParen, .epsilon, .leftBracket, .ident, .string]

/-- The kinds that can follow an operand, in the order in which kinds are listed.  A closing token
that closes the wrong construct still ends the last alternative, so that only another alternative
or the right closing token remain. -/
def operatorKinds (nest : Nest) (found : Option Kind) : List Kind :=
  let ended := found = some .dot ∨ found = some .rightParen ∨ found = some .rightBracket
  match nest.closer with
  | .rightParen => if ended then [.rightParen, .semicolon]
      else [.iterate, .rightParen, .comma, .semicolon]
  | .rightBracket => if ended then [.semicolon, .rightBracket]
      else [.iterate, .comma, .semicolon, .rightBracket]
  | _ => if ended then [.dot, .semicolon]
      else [.iterate, .comma, .dot, .semicolon]

/-- The kinds of tokens that could stand at a place instead of the one that was found. -/
def Place.expected (place : Place) (found : Option Kind) : List Kind :=
  match place with
  | .between => [.finish, .ident]
  | .named _ _ => [.colon]
  | .inside _ _ _ .operand => operandKinds
  | .inside _ _ _ .action => [.ident]
  | .inside _ _ _ .opened => [.ident]
  | .inside _ _ nest (.operator _) => operatorKinds nest found
  | .finished => []

/-! ### Steps -/

/-- What has been read so far. -/
structure State where
  records : List Record := []
  place : Place := .between
deriving DecidableEq, Repr

/-- What a token does inside a record whose operand begins. -/
def stepOperand (nest : Nest) (token : Token) : Option (Nest × Inside) :=
  match token.kind with
  | .ident => some (nest, .operator (.reference token.text false))
  | .string => some (nest, .operator (.terminal (Token.unquoted token.text)))
  | .epsilon => some (nest, .operator .empty)
  | .dollar => some (nest, .action)
  | .percent => some (nest, .opened)
  | .leftParen => some (⟨{}, (.round, nest.level) :: nest.brackets⟩, .operand)
  | .leftBracket => some (⟨{}, (.square, nest.level) :: nest.brackets⟩, .operand)
  | _ => none

/-- The innermost bracket closed behind an operand, if it is of the given kind. -/
def closeBracket (nest : Nest) (e : Expr) (bracket : Bracket) : Option (Nest × Inside) :=
  match nest.brackets with
  | (opener, outer) :: brackets =>
      if opener = bracket then
        some (⟨outer, brackets⟩, .operator (bracket.around (nest.level.alternativeWith e)))
      else none
  | [] => none

/-- What a token other than the dot does behind an operand. -/
def stepOperator (nest : Nest) (e : Expr) (token : Token) : Option (Nest × Inside) :=
  let level := nest.level
  match token.kind with
  | .iterate =>
      some (⟨{ level with iteration := some (level.iterationWith e) }, nest.brackets⟩, .operand)
  | .comma =>
      some (⟨{ level with sequence := some (level.sequenceWith e), iteration := none },
        nest.brackets⟩, .operand)
  | .semicolon =>
      some (⟨{ alternative := some (level.alternativeWith e) }, nest.brackets⟩, .operand)
  | .rightParen => closeBracket nest e .round
  | .rightBracket => closeBracket nest e .square
  | _ => none

/-- What a token inside a record does, if it can stand there and does not end the record. -/
def stepInside (nest : Nest) (state : Inside) (token : Token) : Option (Nest × Inside) :=
  match state with
  | .operand => stepOperand nest token
  | .action =>
      if token.kind = .ident then some (nest, .operator (.semantic token.text)) else none
  | .opened =>
      if token.kind = .ident then some (nest, .operator (.reference token.text true)) else none
  | .operator e => stepOperator nest e token

/-- The rule of a record that a dot ends here, if it can stand here. -/
def endRecord? (nest : Nest) (state : Inside) (token : Token) : Option Expr :=
  match token.kind, state, nest.brackets with
  | .dot, .operator e, [] => some (nest.level.alternativeWith e)
  | _, _, _ => none

/-- What one token does, if it can stand at this place. -/
def State.step (s : State) (token : Token) : Option State :=
  match s.place with
  | .between =>
      match token.kind with
      | .ident => some { s with place := .named token.text token.span }
      | .finish => some { s with place := .finished }
      | _ => none
  | .named name span =>
      if token.kind = .colon then some { s with place := .inside name span {} .operand } else none
  | .inside name span nest state =>
      match endRecord? nest state token with
      | some body => some ⟨⟨name, span, body⟩ :: s.records, .between⟩
      | none =>
          (stepInside nest state token).map fun (nest, state) =>
            { s with place := .inside name span nest state }
  | .finished => none

/-- What a list of tokens does, or the fault of the first token that cannot stand in its place. -/
def State.run (s : State) : List Token → Except Fault State
  | [] => .ok s
  | token :: tokens =>
      match s.step token with
      | some next => next.run tokens
      | none =>
          .error ⟨.unexpected (s.place.expected (some token.kind)) (some token), token.span⟩

/-- Whether a document may end at a place. -/
def Place.mayEnd : Place → Bool
  | .between => true
  | .finished => true
  | _ => false

/-- The records of a document that ends here, behind a token that ends at the byte offset `stop`. -/
def State.finish (s : State) (stop : Nat) : Except Fault Document :=
  if s.place.mayEnd then .ok s.records.reverse
  else .error ⟨.unexpected (s.place.expected none) none, ⟨stop, stop⟩⟩

end Reader

/-- Where the last token ends; zero if there is none. -/
def Token.lastStop (tokens : List Token) : Nat :=
  match tokens.getLast? with
  | some token => token.span.stop
  | none => 0

/-- The records of a lexed text.  A fault of the lexer counts only if all tokens before it can stand
where they do. -/
def Document.ofLexing (lexing : Token.Lexing) : Except Fault Document := do
  let state ← ({} : Reader.State).run lexing.tokens
  match lexing.fault with
  | some fault => .error fault
  | none => state.finish (Token.lastStop lexing.tokens)

/-- The records of a text, or its first fault. -/
def Document.read (text : String) : Except Fault Document :=
  Document.ofLexing (Token.lex text)

end RuleGrammar
