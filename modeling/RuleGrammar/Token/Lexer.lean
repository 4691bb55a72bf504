import RuleGrammar.Fault
import RuleGrammar.Text.Alphabetic
import RuleGrammar.Text.Numeric
import RuleGrammar.Text.WhiteSpace

/-!
# The lexer of rule documents

A text is cut into tokens.  Between tokens there may be white space and remarks, which run from `//`
to the end of their line.

* `spanBlank`: the leading white space and remarks, and what follows them.
* `lexeme`: the token at the head of a text, or what is wrong there.
* `lex`: the tokens of a text up to its end or to the first fault.
* `unquoted`: the name inside a quotation.
-/

namespace RuleGrammar.Token

/-! ### Classes of characters -/

def isNameStart (c : Char) : Bool := Text.isAlphabetic c || c == '_'

def isNameRest (c : Char) : Bool := Text.isAlphabetic c || Text.isNumeric c || c == '_'

def isQuote (c : Char) : Bool := c == '\'' || c == '"'

/-- The kind of a token that is one sign. -/
def punctuation? : Char → Option Kind
  | '$' => some .dollar
  | '%' => some .percent
  | ':' => some .colon
  | '.' => some .dot
  | ',' => some .comma
  | ';' => some .semicolon
  | '#' => some .iterate
  | '*' => some .iterate
  | '(' => some .leftParen
  | ')' => some .rightParen
  | '[' => some .leftBracket
  | ']' => some .rightBracket
  | '@' => some .epsilon
  | '&' => some .epsilon
  | _ => none

/-- The name that, with an exclamation mark directly behind it, ends a document. -/
def endName : List Char := ['E', 'O', 'G', 'r', 'a', 'm']

def byteLength : List Char → Nat
  | [] => 0
  | c :: cs => c.utf8Size + byteLength cs

/-! ### Pieces of a text -/

/-- The leading white space and remarks of a text, and what follows them; `remark` says that the
text begins inside a remark. -/
def spanBlank (remark : Bool) : List Char → List Char × List Char
  | [] => ([], [])
  | c :: cs =>
      if remark then
        let (blank, rest) := spanBlank (c != '\n') cs
        (c :: blank, rest)
      else if Text.isWhiteSpace c then
        let (blank, rest) := spanBlank false cs
        (c :: blank, rest)
      else if c == '/' && cs.head? == some '/' then
        let (blank, rest) := spanBlank true cs
        (c :: blank, rest)
      else ([], c :: cs)

/-- What stands behind an opening quote: up to and with the closing quote, and then what follows; or
up to the end of the line or the text, and nothing, if the quotation is not closed.  A character
behind a backslash never closes, and `escaped` says that the text begins behind one. -/
def spanQuoted (quote : Char) (escaped : Bool) : List Char → List Char × Option (List Char)
  | [] => ([], none)
  | c :: cs =>
      if c == '\\' && !escaped then
        let (body, rest) := spanQuoted quote true cs
        (c :: body, rest)
      else if c == quote && !escaped then ([c], some cs)
      else if c == '\n' then ([], none)
      else
        let (body, rest) := spanQuoted quote false cs
        (c :: body, rest)

/-- The token at the head of a text that does not begin with blanks. -/
inductive Lexeme where
  | read (kind : Kind) (text rest : List Char)
  | unclosed (text : List Char)
  | stray (c : Char)
deriving DecidableEq, Repr

/-- The token that begins with `c` and goes on in `cs`. -/
def lexeme (c : Char) (cs : List Char) : Lexeme :=
  if isQuote c then
    match spanQuoted c false cs with
    | (body, some rest) => .read .string (c :: body) rest
    | (body, none) => .unclosed (c :: body)
  else
    match punctuation? c with
    | some kind => .read kind [c] cs
    | none =>
        if isNameStart c then
          let word := c :: cs.takeWhile isNameRest
          match cs.dropWhile isNameRest with
          | '!' :: rest =>
              if word = endName then .read .finish (word ++ ['!']) rest
              else .read .ident word ('!' :: rest)
          | rest => .read .ident word rest
        else .stray c

/-! ### Nothing is lost -/

theorem spanBlank_append (remark : Bool) (cs : List Char) :
    (spanBlank remark cs).1 ++ (spanBlank remark cs).2 = cs := by
  induction cs generalizing remark with
  | nil => rfl
  | cons c cs ih =>
      rw [spanBlank]
      split
      · exact congrArg (c :: ·) (ih _)
      · split
        · exact congrArg (c :: ·) (ih _)
        · split
          · exact congrArg (c :: ·) (ih _)
          · rfl

theorem spanQuoted_append {quote : Char} {escaped : Bool} {cs body rest : List Char}
    (h : spanQuoted quote escaped cs = (body, some rest)) : body ++ rest = cs := by
  induction cs generalizing escaped body with
  | nil => simp [spanQuoted] at h
  | cons c cs ih =>
      rw [spanQuoted] at h
      split at h
      · obtain ⟨rfl, hr⟩ := Prod.mk.inj h
        exact congrArg (c :: ·) (ih (Prod.ext rfl hr))
      · split at h
        · obtain ⟨rfl, hr⟩ := Prod.mk.inj h
          cases hr
          rfl
        · split at h
          · simp at h
          · obtain ⟨rfl, hr⟩ := Prod.mk.inj h
            exact congrArg (c :: ·) (ih (Prod.ext rfl hr))

/-- A token and what stands behind it make up the text it was read from. -/
theorem lexeme_append {c : Char} {cs text rest : List Char} {kind : Kind}
    (h : lexeme c cs = .read kind text rest) : text ++ rest = c :: cs := by
  rw [lexeme] at h
  split at h
  · split at h
    · next body tail hq =>
        cases h
        exact congrArg (c :: ·) (spanQuoted_append hq)
    · cases h
  · split at h
    · cases h
      rfl
    · split at h
      · dsimp only at h
        split at h
        · next tail hd =>
            have hcs : cs.takeWhile isNameRest ++ '!' :: tail = cs := by
              rw [← hd, List.takeWhile_append_dropWhile]
            split at h <;> cases h <;> simp [hcs]
        · cases h
          simp [List.takeWhile_append_dropWhile]
      · cases h

theorem lexeme_text_ne_nil {c : Char} {cs text rest : List Char} {kind : Kind}
    (h : lexeme c cs = .read kind text rest) : text ≠ [] := by
  rw [lexeme] at h
  split at h
  · split at h
    · cases h
      simp
    · cases h
  · split at h
    · cases h
      simp
    · split at h
      · dsimp only at h
        split at h
        · split at h <;> cases h <;> simp
        · cases h
          simp
      · cases h

/-- What stands behind a token is shorter than the text. -/
theorem length_rest_lt {cs blank text rest : List Char} {c : Char} {tail : List Char} {kind : Kind}
    (hb : spanBlank false cs = (blank, c :: tail)) (h : lexeme c tail = .read kind text rest) :
    rest.length < cs.length := by
  have h₁ : blank ++ c :: tail = cs := by
    have := spanBlank_append false cs
    rwa [hb] at this
  have h₂ := lexeme_append h
  have h₃ := List.length_pos_iff.2 (lexeme_text_ne_nil h)
  have h₄ : text.length + rest.length = tail.length + 1 := by
    rw [← List.length_append, h₂, List.length_cons]
  rw [← h₁, List.length_append, List.length_cons]
  omega

/-! ### The tokens of a text -/

/-- The tokens of a text up to its end or to the first fault. -/
structure Lexing where
  tokens : List Token
  fault : Option Fault
deriving DecidableEq, Repr

/-- A token with its place, which begins at a byte offset. -/
def ofLexeme (start : Nat) (kind : Kind) (text : List Char) : Token :=
  ⟨kind, String.ofList text, ⟨start, start + byteLength text⟩⟩

/-- The tokens of a text whose first character stands at a byte offset. -/
def lexFrom (offset : Nat) (cs : List Char) : Lexing :=
  match hb : spanBlank false cs with
  | (_, []) => ⟨[], none⟩
  | (blank, c :: tail) =>
      let start := offset + byteLength blank
      match h : lexeme c tail with
      | .read kind text rest =>
          have := length_rest_lt hb h
          let others := lexFrom (start + byteLength text) rest
          ⟨ofLexeme start kind text :: others.tokens, others.fault⟩
      | .unclosed text => ⟨[], some ⟨.unclosedString, ⟨start, start + byteLength text⟩⟩⟩
      | .stray c => ⟨[], some ⟨.invalidChar c, ⟨start, start + c.utf8Size⟩⟩⟩
termination_by cs.length

def lex (text : String) : Lexing := lexFrom 0 text.toList

/-! ### Names in quotations -/

/-- A text with every backslash taken off and the character behind it kept. -/
def unescaped : List Char → List Char
  | [] => []
  | ['\\'] => []
  | '\\' :: c :: cs => c :: unescaped cs
  | c :: cs => c :: unescaped cs

/-- The name inside a quotation: what stands between the quotes, without the escapes. -/
def unquoted (text : String) : String :=
  String.ofList (unescaped text.toList.tail.dropLast)

end RuleGrammar.Token
