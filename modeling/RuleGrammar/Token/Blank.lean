import RuleGrammar.Token.Lexer

/-!
# What stands between tokens

* `Token.Blank cs`: the text `cs` consists of white space and of remarks, each of which runs from `//`
  to the end of its line.
* `Token.Gap cs`: the same for a text that something stands behind, so that every remark has its line break.
* `Token.IsIdentifier s`: the text `s` is a name.
-/

namespace RuleGrammar.Token

/-- White space and remarks only; a remark that no line break ends must end the text. -/
inductive Blank : List Char → Prop where
  | nil : Blank []
  | white {c : Char} {cs : List Char} (hc : Text.isWhiteSpace c = true) (h : Blank cs) :
      Blank (c :: cs)
  | remark {body cs : List Char} (hbody : ¬ '\n' ∈ body) (h : Blank cs) :
      Blank ('/' :: '/' :: body ++ '\n' :: cs)
  | lastRemark {body : List Char} (hbody : ¬ '\n' ∈ body) : Blank ('/' :: '/' :: body)

/-- White space and remarks only, each remark with the line break that ends it. -/
inductive Gap : List Char → Prop where
  | nil : Gap []
  | white {c : Char} {cs : List Char} (hc : Text.isWhiteSpace c = true) (h : Gap cs) : Gap (c :: cs)
  | remark {body cs : List Char} (hbody : ¬ '\n' ∈ body) (h : Gap cs) :
      Gap ('/' :: '/' :: body ++ '\n' :: cs)

/-- Whether a text is a name: a character that may begin one, and then characters that may continue
one. -/
def IsIdentifier (s : String) : Prop :=
  match s.toList with
  | [] => False
  | c :: cs => isNameStart c = true ∧ cs.all isNameRest = true

end RuleGrammar.Token
