import RuleGrammar.Document.Phrase

/-!
# Derivations of documents

A derivation of an expression says which production was used at each place, down to the tokens.  The
tokens alone decide all of it: outside all brackets, `;` can only stand between alternatives, `,` only
inside of an alternative and `#` only inside of an element, and each operator groups to the left, so an
expression is cut at the last of its loosest operators.

* `PhraseTree`, `RecordTree`, `DocumentTree`: derivations, with their tokens and what they mean.
* `PhraseTree.phrase`, `DocumentTree.phrase`: a derivation is a derivation of its meaning.
* `Balanced`, `Exposes`: brackets, and the kinds of tokens outside all brackets.
* `PhraseTree.eq_of_tokens_eq`, `DocumentTree.eq_of_tokens_eq`: tokens have at most one derivation.
-/

namespace RuleGrammar

open Token (Kind)

/-! ### Derivations -/

/-- The derivation of an expression of a rank, with the tokens at its leaves. -/
inductive PhraseTree : Phrase.Rank → Type where
  | quotation (t : Token) (h : t.kind = .string) : PhraseTree .atom
  | name (t : Token) (h : t.kind = .ident) : PhraseTree .atom
  | action (d t : Token) (hd : d.kind = .dollar) (h : t.kind = .ident) : PhraseTree .atom
  | opened (p t : Token) (hp : p.kind = .percent) (h : t.kind = .ident) : PhraseTree .atom
  | empty (t : Token) (h : t.kind = .epsilon) : PhraseTree .atom
  | group (l : Token) (body : PhraseTree .alternative) (r : Token) (hl : l.kind = .leftParen)
      (hr : r.kind = .rightParen) : PhraseTree .atom
  | option (l : Token) (body : PhraseTree .alternative) (r : Token) (hl : l.kind = .leftBracket)
      (hr : r.kind = .rightBracket) : PhraseTree .atom
  | ofAtom (d : PhraseTree .atom) : PhraseTree .iteration
  | iter (l : PhraseTree .iteration) (t : Token) (r : PhraseTree .atom) (ht : t.kind = .iterate) :
      PhraseTree .iteration
  | ofIteration (d : PhraseTree .iteration) : PhraseTree .sequence
  | seq (l : PhraseTree .sequence) (t : Token) (r : PhraseTree .iteration) (ht : t.kind = .comma) :
      PhraseTree .sequence
  | ofSequence (d : PhraseTree .sequence) : PhraseTree .alternative
  | alt (l : PhraseTree .alternative) (t : Token) (r : PhraseTree .sequence)
      (ht : t.kind = .semicolon) : PhraseTree .alternative

namespace PhraseTree

/-- The tokens of a derivation, left to right. -/
def tokens {rank : Phrase.Rank} : PhraseTree rank → List Token
  | .quotation t _ | .name t _ | .empty t _ => [t]
  | .action d t _ _ => [d, t]
  | .opened p t _ _ => [p, t]
  | .group l body r _ _ | .option l body r _ _ => l :: body.tokens ++ [r]
  | .ofAtom d | .ofIteration d | .ofSequence d => d.tokens
  | .iter l t r _ | .seq l t r _ | .alt l t r _ => l.tokens ++ t :: r.tokens

def meaning {rank : Phrase.Rank} : PhraseTree rank → Expr
  | .quotation t _ => .terminal (Token.unquoted t.text)
  | .name t _ => .reference t.text false
  | .action _ t _ _ => .semantic t.text
  | .opened _ t _ _ => .reference t.text true
  | .empty _ _ => .empty
  | .group _ body _ _ _ => body.meaning
  | .option _ body _ _ _ => .optional body.meaning
  | .ofAtom d | .ofIteration d | .ofSequence d => d.meaning
  | .iter l _ r _ => .iter l.meaning r.meaning
  | .seq l _ r _ => .seq l.meaning r.meaning
  | .alt l _ r _ => .alt l.meaning r.meaning

/-- The tokens of a derivation form an expression with its meaning. -/
theorem phrase {rank : Phrase.Rank} (d : PhraseTree rank) : Phrase rank d.tokens d.meaning := by
  induction d with
  | quotation t h => exact .quotation h
  | name t h => exact .name h
  | action d t hd h => exact .action hd h
  | opened p t hp h => exact .opened hp h
  | empty t h => exact .empty h
  | group l body r hl hr ih => exact .group hl ih hr
  | option l body r hl hr ih => exact .option hl ih hr
  | ofAtom d ih => exact .ofAtom ih
  | iter l t r ht ihl ihr => exact .iter ihl ht ihr
  | ofIteration d ih => exact .ofIteration ih
  | seq l t r ht ihl ihr => exact .seq ihl ht ihr
  | ofSequence d ih => exact .ofSequence ih
  | alt l t r ht ihl ihr => exact .alt ihl ht ihr

end PhraseTree

/-- The derivation of a record: a name, a colon, an expression and a dot. -/
structure RecordTree where
  name : Token
  colon : Token
  body : PhraseTree .alternative
  dot : Token
  hname : name.kind = .ident
  hcolon : colon.kind = .colon
  hdot : dot.kind = .dot

namespace RecordTree

def tokens (r : RecordTree) : List Token := r.name :: r.colon :: r.body.tokens ++ [r.dot]

def record (r : RecordTree) : Record := ⟨r.name.text, r.name.span, r.body.meaning⟩

end RecordTree

/-- The derivation of a document: any number of records, and then perhaps the mark that ends it. -/
structure DocumentTree where
  records : List RecordTree
  mark : Option {t : Token // t.kind = .finish}

namespace DocumentTree

def tokens (d : DocumentTree) : List Token :=
  d.records.flatMap RecordTree.tokens ++ (d.mark.map Subtype.val).toList

def document (d : DocumentTree) : Document := d.records.map RecordTree.record

/-- The tokens of a derivation form the document that it means. -/
theorem phrase (d : DocumentTree) : DocumentPhrase d.tokens d.document := by
  obtain ⟨records, mark⟩ := d
  induction records with
  | nil =>
      cases mark with
      | none => exact .nil
      | some t => exact .finish t.2
  | cons r records ih =>
      have hrecord : RecordPhrase r.tokens r.record :=
        .intro r.hname r.hcolon r.body.phrase r.hdot
      show DocumentPhrase (r.tokens ++ records.flatMap RecordTree.tokens ++ _) _
      rw [List.append_assoc]
      exact .cons hrecord ih

end DocumentTree

/-! ### Brackets -/

/-- How many brackets a token opens; a closing one counts backwards. -/
def nesting : Kind → Int
  | .leftParen | .leftBracket => 1
  | .rightParen | .rightBracket => -1
  | _ => 0

/-- How many brackets are open behind a list of tokens. -/
def depth : List Token → Int
  | [] => 0
  | t :: ts => nesting t.kind + depth ts

theorem depth_append (ts us : List Token) : depth (ts ++ us) = depth ts + depth us := by
  induction ts with
  | nil => simp [depth]
  | cons t ts ih =>
      show nesting t.kind + depth (ts ++ us) = nesting t.kind + depth ts + depth us
      omega

/-- No bracket is closed that was not opened, and none stays open. -/
structure Balanced (ts : List Token) : Prop where
  closed : depth ts = 0
  opened : ∀ before after, ts = before ++ after → 0 ≤ depth before

/-- A token of a kind stands outside all brackets. -/
def Exposes (ts : List Token) (kind : Kind) : Prop :=
  ∃ before t after, ts = before ++ t :: after ∧ depth before = 0 ∧ t.kind = kind

variable {ts ls rs : List Token} {t l r : Token} {kind : Kind}

/-- Where a list that was put together from two parts is cut, one of the parts is cut or the place lies
between them. -/
theorem append_eq_append_cons {before after : List Token} (h : ls ++ t :: rs = before ++ after) :
    (∃ rest, ls = before ++ rest) ∨ ∃ inner, before = ls ++ t :: inner ∧ rs = inner ++ after := by
  rcases List.append_eq_append_iff.1 h with ⟨xs, rfl, hxs⟩ | ⟨xs, rfl, _⟩
  · cases xs with
    | nil => exact Or.inl ⟨[], by simp⟩
    | cons x xs =>
        obtain ⟨rfl, rfl⟩ := List.cons.inj hxs
        exact Or.inr ⟨xs, rfl, rfl⟩
  · exact Or.inl ⟨xs, rfl⟩

theorem balanced_of_flat (h : ∀ t ∈ ts, nesting t.kind = 0) : Balanced ts := by
  have hdepth : ∀ us : List Token, (∀ t ∈ us, nesting t.kind = 0) → depth us = 0 := by
    intro us hus
    induction us with
    | nil => rfl
    | cons u us ih =>
        rw [depth, hus u (by simp), ih fun t ht => hus t (by simp [ht])]
        rfl
  refine ⟨hdepth ts h, fun before after hcut => ?_⟩
  have hbefore := hdepth before fun t ht => h t (by simp [hcut, ht])
  omega

theorem Balanced.append_cons (hl : Balanced ls) (ht : nesting t.kind = 0) (hr : Balanced rs) :
    Balanced (ls ++ t :: rs) := by
  refine ⟨?_, fun before after h => ?_⟩
  · rw [depth_append, depth, hl.closed, hr.closed, ht]
    rfl
  · rcases append_eq_append_cons h with ⟨rest, hrest⟩ | ⟨inner, rfl, hinner⟩
    · exact hl.opened before rest hrest
    · have := hr.opened inner after hinner
      rw [depth_append, depth, hl.closed, ht]
      omega

/-- Brackets around a balanced list: the list is balanced, and nothing but the opening bracket stands
outside of it. -/
theorem Balanced.enclosed (h : Balanced ts) (hl : nesting l.kind = 1) (hr : nesting r.kind = -1) :
    Balanced (l :: ts ++ [r]) ∧ ∀ kind, Exposes (l :: ts ++ [r]) kind → kind = l.kind := by
  have hinside : ∀ before after, ts ++ [r] = before ++ after →
      0 ≤ depth before ∨ before = ts ++ [r] := by
    intro before after hcut
    rcases append_eq_append_cons hcut with ⟨rest, hrest⟩ | ⟨inner, rfl, hinner⟩
    · exact Or.inl (h.opened before rest hrest)
    · right
      rw [(List.append_eq_nil_iff.1 hinner.symm).1]
  have hwhole : depth (ts ++ [r]) = -1 := by
    rw [depth_append, h.closed]
    simp [depth, hr]
  refine ⟨⟨?_, fun before after hcut => ?_⟩, ?_⟩
  · show nesting l.kind + depth (ts ++ [r]) = 0
    omega
  · cases before with
    | nil => simp [depth]
    | cons x before =>
        obtain ⟨rfl, hrest⟩ := List.cons.inj hcut
        rw [depth]
        rcases hinside before after hrest with hpos | rfl <;> omega
  · rintro kind ⟨before, x, after, hcut, hdepth, rfl⟩
    cases before with
    | nil => exact congrArg Token.kind (List.cons.inj hcut).1.symm
    | cons y before =>
        obtain ⟨rfl, hrest⟩ := List.cons.inj hcut
        rw [depth] at hdepth
        rcases hinside before _ hrest with hpos | rfl
        · omega
        · exact absurd hrest (by simp)

/-- What stands outside all brackets of a pair stands so in one of its parts, or between them. -/
theorem Exposes.of_append_cons (hl : Balanced ls) (ht : nesting t.kind = 0)
    (h : Exposes (ls ++ t :: rs) kind) : Exposes ls kind ∨ t.kind = kind ∨ Exposes rs kind := by
  obtain ⟨before, x, after, hcut, hdepth, rfl⟩ := h
  rcases List.append_eq_append_iff.1 hcut with ⟨xs, rfl, hxs⟩ | ⟨xs, rfl, hxs⟩
  · cases xs with
    | nil => exact Or.inr (Or.inl (congrArg Token.kind (List.cons.inj hxs).1))
    | cons y xs =>
        obtain ⟨rfl, rfl⟩ := List.cons.inj hxs
        rw [depth_append, depth, hl.closed, ht] at hdepth
        exact Or.inr (Or.inr ⟨xs, x, after, rfl, by omega, rfl⟩)
  · cases xs with
    | nil => exact Or.inr (Or.inl (congrArg Token.kind (List.cons.inj hxs).1.symm))
    | cons y xs =>
        obtain ⟨rfl, rfl⟩ := List.cons.inj hxs
        exact Or.inl ⟨before, x, xs, rfl, hdepth, rfl⟩

/-- Behind a balanced part, a token outside all brackets of a longer balanced part is exposed. -/
theorem exposes_of_longer {xs : List Token} {x : Token} (hl : Balanced ls)
    (hlonger : Balanced (ls ++ t :: xs)) (ht : nesting t.kind = 0) :
    Exposes (xs ++ x :: rs) x.kind := by
  refine ⟨xs, x, rs, rfl, ?_, rfl⟩
  have hdepth := hlonger.closed
  rw [depth_append, depth, hl.closed, ht] at hdepth
  omega

/-- Two cuts of the same tokens at an operator that is exposed behind neither of them are one cut: the
longer of two left parts would expose its operator in the right part of the other one. -/
theorem cut_unique {ls' rs' : List Token} {t' : Token} (hl : Balanced ls) (hl' : Balanced ls')
    (ht : t.kind = kind) (ht' : t'.kind = kind) (hkind : nesting kind = 0) (hr : ¬ Exposes rs kind)
    (hr' : ¬ Exposes rs' kind) (h : ls ++ t :: rs = ls' ++ t' :: rs') :
    ls = ls' ∧ t = t' ∧ rs = rs' := by
  rcases List.append_eq_append_iff.1 h with ⟨xs, rfl, hxs⟩ | ⟨xs, rfl, hxs⟩
  · cases xs with
    | nil =>
        obtain ⟨rfl, rfl⟩ := List.cons.inj hxs
        exact ⟨by simp, rfl, rfl⟩
    | cons x xs =>
        obtain ⟨rfl, rfl⟩ := List.cons.inj hxs
        exact absurd (ht' ▸ exposes_of_longer hl hl' (by rw [ht, hkind])) hr
  · cases xs with
    | nil =>
        obtain ⟨rfl, rfl⟩ := List.cons.inj hxs
        exact ⟨by simp, rfl, rfl⟩
    | cons x xs =>
        obtain ⟨rfl, rfl⟩ := List.cons.inj hxs
        exact absurd (ht ▸ exposes_of_longer hl' hl (by rw [ht', hkind])) hr'

/-! ### Operators outside brackets -/

/-- The operators that may stand outside all brackets in an expression of a rank. -/
def Phrase.Rank.operators : Phrase.Rank → List Kind
  | .atom => []
  | .iteration => [.iterate]
  | .sequence => [.iterate, .comma]
  | .alternative => [.iterate, .comma, .semicolon]

namespace PhraseTree

theorem balanced_tokens {rank : Phrase.Rank} (d : PhraseTree rank) : Balanced d.tokens := by
  induction d with
  | quotation t h | name t h | empty t h => exact balanced_of_flat (by simp [tokens, h, nesting])
  | action d t hd h | opened d t hd h => exact balanced_of_flat (by simp [tokens, hd, h, nesting])
  | group l body r hl hr ih | option l body r hl hr ih =>
      exact (ih.enclosed (by rw [hl]; rfl) (by rw [hr]; rfl)).1
  | ofAtom d ih | ofIteration d ih | ofSequence d ih => exact ih
  | iter l t r ht ihl ihr | seq l t r ht ihl ihr | alt l t r ht ihl ihr =>
      exact ihl.append_cons (by rw [ht]; rfl) ihr

/-- **Outside all brackets an expression has no operators but those of its rank.** -/
theorem mem_operators_of_exposes {rank : Phrase.Rank} (d : PhraseTree rank)
    (hkind : kind ∈ Phrase.Rank.alternative.operators) (h : Exposes d.tokens kind) :
    kind ∈ rank.operators := by
  have hleaf : ∀ {ts : List Token}, Exposes ts kind → ∃ t ∈ ts, t.kind = kind := by
    rintro ts ⟨before, t, after, rfl, _, rfl⟩
    exact ⟨t, by simp, rfl⟩
  induction d with
  | quotation t ht | name t ht | empty t ht =>
      obtain ⟨x, hx, rfl⟩ := hleaf h
      rw [List.mem_singleton.1 hx, ht] at hkind
      simp [Phrase.Rank.operators] at hkind
  | action d t hd ht | opened d t hd ht =>
      obtain ⟨x, hx, rfl⟩ := hleaf h
      simp only [tokens, List.mem_cons, List.not_mem_nil, or_false] at hx
      rcases hx with rfl | rfl <;> simp_all [Phrase.Rank.operators]
  | group l body r hl hr ih | option l body r hl hr ih =>
      have henclosed := body.balanced_tokens.enclosed (l := l) (r := r) (by rw [hl]; rfl) (by rw [hr]; rfl)
      rw [henclosed.2 kind h, hl] at hkind
      simp [Phrase.Rank.operators] at hkind
  | ofAtom d ih => exact absurd (ih h) List.not_mem_nil
  | ofIteration d ih => exact List.mem_append_left [.comma] (ih h)
  | ofSequence d ih => exact List.mem_append_left [.semicolon] (ih h)
  | iter l t r ht ihl ihr =>
      rcases h.of_append_cons l.balanced_tokens (by rw [ht]; rfl) with h | h | h
      · exact ihl h
      · simp [Phrase.Rank.operators, ← h, ht]
      · exact absurd (ihr h) List.not_mem_nil
  | seq l t r ht ihl ihr =>
      rcases h.of_append_cons l.balanced_tokens (by rw [ht]; rfl) with h | h | h
      · exact ihl h
      · simp [Phrase.Rank.operators, ← h, ht]
      · exact List.mem_append_left [.comma] (ihr h)
  | alt l t r ht ihl ihr =>
      rcases h.of_append_cons l.balanced_tokens (by rw [ht]; rfl) with h | h | h
      · exact ihl h
      · simp [Phrase.Rank.operators, ← h, ht]
      · exact List.mem_append_left [.semicolon] (ihr h)

theorem not_exposes {rank : Phrase.Rank} (d : PhraseTree rank)
    (hkind : kind ∈ Phrase.Rank.alternative.operators) (hrank : ¬ kind ∈ rank.operators) :
    ¬ Exposes d.tokens kind :=
  fun h => hrank (d.mem_operators_of_exposes hkind h)

/-! ### Uniqueness -/

/-- An expression of a rank is no pair with a looser operator between its parts. -/
theorem tokens_ne_append_cons {rank left : Phrase.Rank} (d : PhraseTree rank) (l : PhraseTree left)
    (ht : t.kind = kind) (hkind : kind ∈ Phrase.Rank.alternative.operators)
    (hrank : ¬ kind ∈ rank.operators) : d.tokens ≠ l.tokens ++ t :: rs := by
  intro heq
  apply d.not_exposes hkind hrank
  rw [heq]
  exact ⟨l.tokens, t, rs, rfl, l.balanced_tokens.closed, ht⟩

/-- Two pairs with the same operator and the same tokens have parts with the same tokens, if the right
parts are too tight to hold the operator outside all brackets. -/
theorem pair_unique {left right : Phrase.Rank} {l l' : PhraseTree left} {r r' : PhraseTree right}
    {t' : Token} (ht : t.kind = kind) (ht' : t'.kind = kind)
    (hkind : kind ∈ Phrase.Rank.alternative.operators) (hright : ¬ kind ∈ right.operators)
    (h : l.tokens ++ t :: r.tokens = l'.tokens ++ t' :: r'.tokens) :
    l.tokens = l'.tokens ∧ t = t' ∧ r.tokens = r'.tokens := by
  have hflat : nesting kind = 0 := by
    simp only [Phrase.Rank.operators, List.mem_cons, List.not_mem_nil, or_false] at hkind
    rcases hkind with rfl | rfl | rfl <;> rfl
  exact cut_unique l.balanced_tokens l'.balanced_tokens ht ht' hflat (r.not_exposes hkind hright)
    (r'.not_exposes hkind hright) h

/-- **Tokens have at most one derivation as an expression of a rank.**  By induction on one derivation,
with cases on the other: atoms by their first token, and pairs by the cut at their operator. -/
theorem eq_of_tokens_eq {rank : Phrase.Rank} (d : PhraseTree rank) :
    ∀ d' : PhraseTree rank, d.tokens = d'.tokens → d = d' := by
  induction d with
  | quotation t h | name t h | empty t h =>
      intro d' heq
      cases d' <;> grind [tokens]
  | action d t hd h | opened d t hd h =>
      intro d' heq
      cases d' <;> grind [tokens]
  | group l body r hl hr ih =>
      intro d' heq
      cases d' with
      | group l' body' r' hl' hr' =>
          obtain ⟨rfl, hrest⟩ := List.cons.inj heq
          obtain ⟨hbody, hlast⟩ := List.append_inj' hrest rfl
          cases hlast
          rw [ih body' hbody]
      | _ => grind [tokens]
  | option l body r hl hr ih =>
      intro d' heq
      cases d' with
      | option l' body' r' hl' hr' =>
          obtain ⟨rfl, hrest⟩ := List.cons.inj heq
          obtain ⟨hbody, hlast⟩ := List.append_inj' hrest rfl
          cases hlast
          rw [ih body' hbody]
      | _ => grind [tokens]
  | ofAtom d ih =>
      intro d' heq
      cases d' with
      | ofAtom d' => rw [ih d' heq]
      | iter l t r ht => exact absurd heq (d.tokens_ne_append_cons l ht (by decide) (by decide))
  | iter l t r ht ihl ihr =>
      intro d' heq
      cases d' with
      | ofAtom d' => exact absurd heq.symm (d'.tokens_ne_append_cons l ht (by decide) (by decide))
      | iter l' t' r' ht' =>
          obtain ⟨hl, rfl, hr⟩ := pair_unique ht ht' (by decide) (by decide) heq
          rw [ihl l' hl, ihr r' hr]
  | ofIteration d ih =>
      intro d' heq
      cases d' with
      | ofIteration d' => rw [ih d' heq]
      | seq l t r ht => exact absurd heq (d.tokens_ne_append_cons l ht (by decide) (by decide))
  | seq l t r ht ihl ihr =>
      intro d' heq
      cases d' with
      | ofIteration d' => exact absurd heq.symm (d'.tokens_ne_append_cons l ht (by decide) (by decide))
      | seq l' t' r' ht' =>
          obtain ⟨hl, rfl, hr⟩ := pair_unique ht ht' (by decide) (by decide) heq
          rw [ihl l' hl, ihr r' hr]
  | ofSequence d ih =>
      intro d' heq
      cases d' with
      | ofSequence d' => rw [ih d' heq]
      | alt l t r ht => exact absurd heq (d.tokens_ne_append_cons l ht (by decide) (by decide))
  | alt l t r ht ihl ihr =>
      intro d' heq
      cases d' with
      | ofSequence d' => exact absurd heq.symm (d'.tokens_ne_append_cons l ht (by decide) (by decide))
      | alt l' t' r' ht' =>
          obtain ⟨hl, rfl, hr⟩ := pair_unique ht ht' (by decide) (by decide) heq
          rw [ihl l' hl, ihr r' hr]

/-- No dot stands inside an expression. -/
theorem kind_ne_dot {rank : Phrase.Rank} (d : PhraseTree rank) : ∀ t ∈ d.tokens, t.kind ≠ .dot := by
  induction d with
  | quotation t h | name t h | empty t h => simp [tokens, h]
  | action d t hd h | opened d t hd h => simp [tokens, hd, h]
  | group l body r hl hr ih | option l body r hl hr ih =>
      simp only [tokens, List.cons_append, List.mem_cons, List.mem_append, List.not_mem_nil, or_false]
      rintro t (rfl | ht | rfl)
      · simp [hl]
      · exact ih t ht
      · simp [hr]
  | ofAtom d ih | ofIteration d ih | ofSequence d ih => exact ih
  | iter l t r ht ihl ihr | seq l t r ht ihl ihr | alt l t r ht ihl ihr =>
      simp only [tokens, List.mem_append, List.mem_cons]
      rintro x (hx | rfl | hx)
      · exact ihl x hx
      · simp [ht]
      · exact ihr x hx

end PhraseTree

/-- Records are told apart from what follows them by their dot. -/
theorem RecordTree.eq_of_tokens_append_eq {r r' : RecordTree} {us us' : List Token}
    (h : r.tokens ++ us = r'.tokens ++ us') : r = r' ∧ us = us' := by
  have hbody : ∀ (r : RecordTree) (us : List Token),
      (r.body.tokens ++ r.dot :: us).takeWhile (fun t => t.kind != .dot) = r.body.tokens := by
    intro r us
    rw [List.takeWhile_append_of_pos fun t ht => by simpa using r.body.kind_ne_dot t ht]
    simp [r.hdot]
  simp only [tokens, List.cons_append, List.append_assoc, List.nil_append, List.cons.injEq] at h
  obtain ⟨hname, hcolon, hrest⟩ := h
  have hsame : r.body.tokens = r'.body.tokens := by rw [← hbody r us, hrest, hbody r' us']
  rw [hsame] at hrest
  obtain ⟨hdot, hus⟩ := List.cons.inj (List.append_cancel_left hrest)
  obtain ⟨name, colon, body, dot, _, _, _⟩ := r
  obtain ⟨name', colon', body', dot', _, _, _⟩ := r'
  cases hname
  cases hcolon
  cases hdot
  cases body.eq_of_tokens_eq body' hsame
  exact ⟨rfl, hus⟩

/-- **Tokens have at most one derivation as a document.** -/
theorem DocumentTree.eq_of_tokens_eq {d d' : DocumentTree} (h : d.tokens = d'.tokens) : d = d' := by
  -- a record begins with a name, the mark does not
  have hfirst : ∀ (r : RecordTree) (us : List Token) (mark : Option {t : Token // t.kind = .finish}),
      r.tokens ++ us ≠ (mark.map Subtype.val).toList := by
    intro r us mark heq
    cases mark with
    | none => cases heq
    | some t =>
        have hkind := congrArg Token.kind (List.cons.inj heq).1
        rw [r.hname, t.2] at hkind
        cases hkind
  obtain ⟨records, mark⟩ := d
  obtain ⟨records', mark'⟩ := d'
  simp only [tokens] at h
  induction records generalizing records' with
  | nil =>
      cases records' with
      | nil =>
          cases mark <;> cases mark' <;> simp_all [Subtype.ext_iff]
      | cons r' records' =>
          rw [List.flatMap_cons, List.append_assoc] at h
          exact absurd h.symm (hfirst _ _ _)
  | cons r records ih =>
      rw [List.flatMap_cons, List.append_assoc] at h
      cases records' with
      | nil => exact absurd h (hfirst _ _ _)
      | cons r' records' =>
          rw [List.flatMap_cons, List.append_assoc] at h
          obtain ⟨rfl, hrest⟩ := RecordTree.eq_of_tokens_append_eq h
          cases ih records' hrest
          rfl

end RuleGrammar
