import RuleGrammar.Document
import RuleGrammar.Token.Lexer

/-!
# Phrases of documents

Which lists of tokens form an expression, a record or a document, and what they mean.  The sign `#`
binds tighter than `,`, and `,` tighter than `;`, and each of them groups to the left.

* `Phrase.Rank`: the four kinds of expressions by how tightly they bind.
* `Phrase rank tokens e`: the tokens form an expression of a rank that means `e`.
* `RecordPhrase`, `DocumentPhrase`: the same for records and documents.
-/

namespace RuleGrammar

/-- The kinds of expressions by how tightly they bind. -/
inductive Phrase.Rank where
  | atom
  | iteration
  | sequence
  | alternative
deriving DecidableEq, Repr

/-- `Phrase rank tokens e` says that the tokens form an expression of a rank that means `e`. -/
inductive Phrase : Phrase.Rank → List Token → Expr → Prop where
  | quotation {t : Token} (h : t.kind = .string) :
      Phrase .atom [t] (.terminal (Token.unquoted t.text))
  | name {t : Token} (h : t.kind = .ident) : Phrase .atom [t] (.reference t.text false)
  | action {d t : Token} (hd : d.kind = .dollar) (h : t.kind = .ident) :
      Phrase .atom [d, t] (.semantic t.text)
  | opened {p t : Token} (hp : p.kind = .percent) (h : t.kind = .ident) :
      Phrase .atom [p, t] (.reference t.text true)
  | empty {t : Token} (h : t.kind = .epsilon) : Phrase .atom [t] .empty
  | group {l r : Token} {ts : List Token} {e : Expr} (hl : l.kind = .leftParen)
      (h : Phrase .alternative ts e) (hr : r.kind = .rightParen) :
      Phrase .atom (l :: ts ++ [r]) e
  | option {l r : Token} {ts : List Token} {e : Expr} (hl : l.kind = .leftBracket)
      (h : Phrase .alternative ts e) (hr : r.kind = .rightBracket) :
      Phrase .atom (l :: ts ++ [r]) (.optional e)
  | ofAtom {ts : List Token} {e : Expr} (h : Phrase .atom ts e) : Phrase .iteration ts e
  | iter {ls rs : List Token} {t : Token} {l r : Expr} (hl : Phrase .iteration ls l)
      (ht : t.kind = .iterate) (hr : Phrase .atom rs r) :
      Phrase .iteration (ls ++ t :: rs) (.iter l r)
  | ofIteration {ts : List Token} {e : Expr} (h : Phrase .iteration ts e) : Phrase .sequence ts e
  | seq {ls rs : List Token} {t : Token} {l r : Expr} (hl : Phrase .sequence ls l)
      (ht : t.kind = .comma) (hr : Phrase .iteration rs r) :
      Phrase .sequence (ls ++ t :: rs) (.seq l r)
  | ofSequence {ts : List Token} {e : Expr} (h : Phrase .sequence ts e) : Phrase .alternative ts e
  | alt {ls rs : List Token} {t : Token} {l r : Expr} (hl : Phrase .alternative ls l)
      (ht : t.kind = .semicolon) (hr : Phrase .sequence rs r) :
      Phrase .alternative (ls ++ t :: rs) (.alt l r)

/-- The tokens form a record: a name, a colon, an expression and a dot. -/
inductive RecordPhrase : List Token → Record → Prop where
  | intro {name colon dot : Token} {ts : List Token} {e : Expr} (hname : name.kind = .ident)
      (hcolon : colon.kind = .colon) (h : Phrase .alternative ts e) (hdot : dot.kind = .dot) :
      RecordPhrase (name :: colon :: ts ++ [dot]) ⟨name.text, name.span, e⟩

/-- The tokens form a document: records, and then perhaps the mark that ends it. -/
inductive DocumentPhrase : List Token → Document → Prop where
  | nil : DocumentPhrase [] []
  | finish {t : Token} (h : t.kind = .finish) : DocumentPhrase [t] []
  | cons {ts rest : List Token} {record : Record} {document : Document}
      (h : RecordPhrase ts record) (hrest : DocumentPhrase rest document) :
      DocumentPhrase (ts ++ rest) (record :: document)

end RuleGrammar
