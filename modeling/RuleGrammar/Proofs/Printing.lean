import RuleGrammar.Document.Phrase
import RuleGrammar.Proofs.Lexing
import RuleGrammar.Proofs.Reading

/-!
# Rule text is read back

The text of a tree is cut into the tokens it was written with, and these form a phrase that means the
tree with its chains nested to the left.  So the text of a tree determines the tree up to the nesting
of its chains.

* `Tree.Legible`: a tree whose names can be read back.
* `Tree.tokens`: the tokens that the text of a tree is written with; `lexes_text`.
* `Tree.PhraseOf`: what these tokens mean at each rank; `phraseOf_tokens`.
* `leftNested_eq_of_text_eq`: trees with the same text.
-/

namespace RuleGrammar.Tree

open Token (Kind Lexes Parted essence)

/-- Names of references and of semantic actions are names, and no terminal holds a line break. -/
def Legible : Expr → Prop
  | .terminal name => ¬ '\n' ∈ name.toList
  | .semantic name => Token.IsIdentifier name
  | .reference name _ => Token.IsIdentifier name
  | .seq l r | .alt l r | .iter l r => l.Legible ∧ r.Legible

/-! ### Tokens of the text -/

def enclosed (condition : Bool) (ts : List (Kind × String)) : List (Kind × String) :=
  if condition then (.leftParen, "(") :: (ts ++ [(.rightParen, ")")]) else ts

def tokens : Expr → List (Kind × String)
  | .terminal name => [Token.terminalEssence name]
  | .semantic name => [(.dollar, "$"), (.ident, name)]
  | .reference name opened => if opened then [(.percent, "%"), (.ident, name)] else [(.ident, name)]
  | .alt l r => l.tokens ++ (.semicolon, ";") :: r.tokens
  | .seq l r =>
      enclosed (l.tightness < 1) l.tokens ++ (.comma, ",") :: enclosed (r.tightness < 1) r.tokens
  | .iter l r =>
      enclosed (l.tightness < 3) l.tokens ++ (.iterate, "#") :: enclosed (r.tightness < 3) r.tokens

/-- In front of a text that parts names, a string is cut into tokens. -/
def Prints (s : String) (ts : List (Kind × String)) : Prop :=
  ∀ {cs : List Char} {es : List (Kind × String)}, Parted cs → Lexes cs es →
    Lexes (s.toList ++ cs) (ts ++ es)

theorem isWhiteSpace_space : Text.isWhiteSpace ' ' = true := by decide +kernel

theorem prints_bracketed {s : String} {ts : List (Kind × String)} (h : Prints s ts) (b : Bool) :
    Prints (bracketed b s) (enclosed b ts) := by
  cases b with
  | false => exact h
  | true =>
      intro cs es _ hes
      have hclose : Lexes (')' :: cs) ((.rightParen, ")") :: es) := Lexes.sign rfl hes
      have hinner := h (Token.parted_paren cs) hclose
      have hopen : Lexes ('(' :: (s.toList ++ ')' :: cs)) _ := Lexes.sign rfl hinner
      have htext : (bracketed true s).toList ++ cs = '(' :: (s.toList ++ ')' :: cs) := by
        rw [bracketed, if_pos rfl, String.toList_append, String.toList_append]
        simp
      have htokens : enclosed true ts ++ es
          = (.leftParen, String.ofList ['(']) :: (ts ++ (.rightParen, ")") :: es) := by
        rw [enclosed, if_pos rfl]
        simp
      rw [htext, htokens]
      exact hopen

/-- Two printed operands with a sign between them. -/
theorem prints_pair {s t op : String} {ss ts : List (Kind × String)} {c : Char} {kind : Kind}
    (hs : Prints s ss) (ht : Prints t ts) (hop : op.toList = [' ', c, ' '])
    (hc : Token.punctuation? c = some kind) :
    Prints (s ++ op ++ t) (ss ++ (kind, String.ofList [c]) :: ts) := by
  intro cs es hcs hes
  have hright : Lexes (c :: ' ' :: (t.toList ++ cs)) _ :=
    Lexes.sign hc (Lexes.white isWhiteSpace_space (ht hcs hes))
  have hleft := hs (Token.parted_space _) (Lexes.white isWhiteSpace_space hright)
  have htext : (s ++ op ++ t).toList ++ cs = s.toList ++ ' ' :: c :: ' ' :: (t.toList ++ cs) := by
    rw [String.toList_append, String.toList_append, hop]
    simp
  rw [htext, List.append_assoc]
  exact hleft

/-- A sign directly in front of a name. -/
theorem prints_marked {name : String} {mark : String} {c : Char} {kind : Kind}
    (hmark : mark.toList = [c]) (hc : Token.punctuation? c = some kind)
    (hname : Token.IsIdentifier name) :
    Prints (mark ++ name) [(kind, String.ofList [c]), (.ident, name)] := by
  intro cs es hcs hes
  rw [String.toList_append, hmark]
  exact Lexes.sign hc (Lexes.name hname hcs hes)

/-- **The text of a tree is cut into its tokens.** -/
theorem lexes_text {e : Expr} (he : e.Legible) : Prints e.text e.tokens := by
  induction e with
  | terminal name =>
      intro cs es _ hes
      exact Lexes.terminal he hes
  | semantic name => exact prints_marked rfl rfl he
  | reference name opened =>
      cases opened with
      | true => exact prints_marked rfl rfl he
      | false =>
          intro cs es hcs hes
          have htext : text (.reference name false) = name := String.empty_append
          rw [htext]
          exact Lexes.name he hcs hes
  | alt l r ihl ihr => exact prints_pair (ihl he.1) (ihr he.2) rfl rfl
  | seq l r ihl ihr =>
      exact prints_pair (prints_bracketed (ihl he.1) _) (prints_bracketed (ihr he.2) _) rfl rfl
  | iter l r ihl ihr =>
      exact prints_pair (prints_bracketed (ihl he.1) _) (prints_bracketed (ihr he.2) _) rfl rfl

/-! ### Nesting to the left -/

variable {α : Type}

theorem seqOnto_assoc (a b c : Tree α) : seqOnto a (seqOnto b c) = seqOnto (seqOnto a b) c := by
  induction c with
  | seq l r ihl _ => rw [seqOnto, seqOnto, seqOnto, ihl]
  | _ => rfl

theorem altOnto_assoc (a b c : Tree α) : altOnto a (altOnto b c) = altOnto (altOnto a b) c := by
  induction c with
  | alt l r ihl _ => rw [altOnto, altOnto, altOnto, ihl]
  | _ => rfl

theorem tightness_leftNested (t : Tree α) : t.leftNested.tightness = t.tightness := by
  cases t with
  | seq l r =>
      rw [leftNested]
      cases r.leftNested <;> rfl
  | alt l r =>
      rw [leftNested]
      cases r.leftNested <;> rfl
  | _ => rfl

theorem altOnto_of_tight {t : Tree α} (x : Tree α) (h : t.tightness ≠ 0) :
    altOnto x t.leftNested = .alt x t.leftNested := by
  rw [← tightness_leftNested] at h
  cases ht : t.leftNested with
  | alt l r =>
      rw [ht] at h
      exact absurd rfl h
  | _ => rfl

theorem seqOnto_of_not_seq {t : Tree α} (x : Tree α) (h : t.tightness ≠ 1) :
    seqOnto x t.leftNested = .seq x t.leftNested := by
  rw [← tightness_leftNested] at h
  cases ht : t.leftNested with
  | seq l r =>
      rw [ht] at h
      exact absurd rfl h
  | _ => rfl

/-! ### Phrases of the tokens -/

/-- What tokens mean that are to be read as a tree: a phrase of the rank of the tree, which goes on a
phrase in front of it as a chain nested to the left. -/
structure PhraseOf (e : Expr) (ts : List Token) : Prop where
  alternative : Phrase .alternative ts e.leftNested
  sequence : e.tightness ≠ 0 → Phrase .sequence ts e.leftNested
  atom : ¬ e.tightness < 3 → Phrase .atom ts e.leftNested
  altBehind : ∀ {ls : List Token} {x : Expr} {t : Token}, Phrase .alternative ls x →
    t.kind = .semicolon → Phrase .alternative (ls ++ t :: ts) (altOnto x e.leftNested)
  seqBehind : e.tightness ≠ 0 → ∀ {ls : List Token} {x : Expr} {t : Token}, Phrase .sequence ls x →
    t.kind = .comma → Phrase .sequence (ls ++ t :: ts) (seqOnto x e.leftNested)

/-- An iteration or a leaf. -/
theorem PhraseOf.of_iteration {e : Expr} {ts : List Token} (h : Phrase .iteration ts e.leftNested)
    (htight : e.tightness ≠ 0 ∧ e.tightness ≠ 1) (hatom : ¬ e.tightness < 3 → Phrase .atom ts e.leftNested) :
    PhraseOf e ts where
  alternative := .ofSequence (.ofIteration h)
  sequence _ := .ofIteration h
  atom := hatom
  altBehind hx ht := by
    rw [altOnto_of_tight _ htight.1]
    exact .alt hx ht (.ofIteration h)
  seqBehind := by
    intro _ ls x t hx ht
    rw [seqOnto_of_not_seq _ htight.2]
    exact .seq hx ht h

theorem PhraseOf.of_atom {e : Expr} {ts : List Token} (h : Phrase .atom ts e.leftNested)
    (htight : e.tightness = 3) : PhraseOf e ts :=
  .of_iteration (.ofAtom h) (by omega) fun _ => h

/-- Tokens between parentheses. -/
theorem exists_of_map_enclosed {ts : List Token} {es : List (Kind × String)}
    (h : ts.map essence = enclosed true es) :
    ∃ l us r, ts = l :: us ++ [r] ∧ l.kind = .leftParen ∧ us.map essence = es ∧
      r.kind = .rightParen := by
  rw [enclosed, if_pos rfl] at h
  obtain ⟨l, rest, rfl, hl, hrest⟩ := List.map_eq_cons_iff.1 h
  obtain ⟨us, last, rfl, hus, hlast⟩ := List.map_eq_append_iff.1 hrest
  obtain ⟨r, others, rfl, hr, hnil⟩ := List.map_eq_cons_iff.1 hlast
  rw [List.map_eq_nil_iff.1 hnil]
  exact ⟨l, us, r, rfl, congrArg Prod.fst hl, hus, congrArg Prod.fst hr⟩

/-- An operand of an iteration, between parentheses unless it is a leaf. -/
theorem phrase_atom_enclosed {e : Expr} (h : ∀ ts, ts.map essence = e.tokens → PhraseOf e ts)
    {ts : List Token} (hts : ts.map essence = enclosed (e.tightness < 3) e.tokens) :
    Phrase .atom ts e.leftNested := by
  by_cases htight : e.tightness < 3
  · rw [decide_eq_true htight] at hts
    obtain ⟨l, us, r, rfl, hl, hus, hr⟩ := exists_of_map_enclosed hts
    exact .group hl (h us hus).alternative hr
  · rw [decide_eq_false htight] at hts
    exact (h ts hts).atom htight

/-- An operand of a sequence, between parentheses if it is an alternative. -/
theorem phrase_sequence_enclosed {e : Expr} (h : ∀ ts, ts.map essence = e.tokens → PhraseOf e ts)
    {ts : List Token} (hts : ts.map essence = enclosed (e.tightness < 1) e.tokens) :
    Phrase .sequence ts e.leftNested ∧ ∀ {ls : List Token} {x : Expr} {t : Token},
      Phrase .sequence ls x → t.kind = .comma →
        Phrase .sequence (ls ++ t :: ts) (seqOnto x e.leftNested) := by
  by_cases htight : e.tightness < 1
  · rw [decide_eq_true htight] at hts
    obtain ⟨l, us, r, rfl, hl, hus, hr⟩ := exists_of_map_enclosed hts
    have hatom : Phrase .atom (l :: us ++ [r]) e.leftNested := .group hl (h us hus).alternative hr
    refine ⟨.ofIteration (.ofAtom hatom), fun hx ht => ?_⟩
    rw [seqOnto_of_not_seq _ (by omega)]
    exact .seq hx ht (.ofAtom hatom)
  · rw [decide_eq_false htight] at hts
    exact ⟨(h ts hts).sequence (by omega), (h ts hts).seqBehind (by omega)⟩

/-- **The tokens of a tree mean the tree with its chains nested to the left.**  By induction on the
tree; a chain is read operand by operand, so each operand goes on what was read in front of it. -/
theorem phraseOf_tokens (e : Expr) : ∀ ts : List Token, ts.map essence = e.tokens → PhraseOf e ts := by
  induction e with
  | terminal name =>
      intro ts hts
      obtain ⟨t, others, rfl, ht, hnil⟩ := List.map_eq_cons_iff.1 hts
      rw [List.map_eq_nil_iff.1 hnil]
      refine .of_atom ?_ rfl
      unfold Token.terminalEssence at ht
      by_cases hname : name = ""
      · rw [if_pos hname] at ht
        rw [hname]
        exact .empty (congrArg Prod.fst ht)
      · rw [if_neg hname] at ht
        have htext : t.text = terminalText name := congrArg Prod.snd ht
        have hphrase : Phrase .atom [t] (.terminal (Token.unquoted t.text)) :=
          .quotation (congrArg Prod.fst ht)
        rw [htext, Token.unquoted_terminalText hname] at hphrase
        exact hphrase
  | semantic name =>
      intro ts hts
      obtain ⟨d, rest, rfl, hd, hrest⟩ := List.map_eq_cons_iff.1 hts
      obtain ⟨t, others, rfl, ht, hnil⟩ := List.map_eq_cons_iff.1 hrest
      rw [List.map_eq_nil_iff.1 hnil]
      have hphrase : Phrase .atom [d, t] (.semantic t.text) :=
        .action (congrArg Prod.fst hd) (congrArg Prod.fst ht)
      rw [show t.text = name from congrArg Prod.snd ht] at hphrase
      exact .of_atom hphrase rfl
  | reference name opened =>
      intro ts hts
      cases opened with
      | true =>
          obtain ⟨p, rest, rfl, hp, hrest⟩ := List.map_eq_cons_iff.1 hts
          obtain ⟨t, others, rfl, ht, hnil⟩ := List.map_eq_cons_iff.1 hrest
          rw [List.map_eq_nil_iff.1 hnil]
          have hphrase : Phrase .atom [p, t] (.reference t.text true) :=
            .opened (congrArg Prod.fst hp) (congrArg Prod.fst ht)
          rw [show t.text = name from congrArg Prod.snd ht] at hphrase
          exact .of_atom hphrase rfl
      | false =>
          obtain ⟨t, others, rfl, ht, hnil⟩ := List.map_eq_cons_iff.1 hts
          rw [List.map_eq_nil_iff.1 hnil]
          have hphrase : Phrase .atom [t] (.reference t.text false) := .name (congrArg Prod.fst ht)
          rw [show t.text = name from congrArg Prod.snd ht] at hphrase
          exact .of_atom hphrase rfl
  | alt l r ihl ihr =>
      intro ts hts
      obtain ⟨ls, rest, rfl, hls, hrest⟩ := List.map_eq_append_iff.1 hts
      obtain ⟨t, rs, rfl, ht, hrs⟩ := List.map_eq_cons_iff.1 hrest
      have hkind : t.kind = .semicolon := congrArg Prod.fst ht
      have hl := ihl ls hls
      have hr := ihr rs hrs
      refine ⟨hr.altBehind hl.alternative hkind, fun h => absurd rfl h, fun h => absurd (by simp [tightness]) h,
        fun hx hsemi => ?_, fun h => absurd rfl h⟩
      have hchain := hr.altBehind (hl.altBehind hx hsemi) hkind
      rw [← altOnto_assoc, List.append_assoc, List.cons_append] at hchain
      exact hchain
  | seq l r ihl ihr =>
      intro ts hts
      obtain ⟨ls, rest, rfl, hls, hrest⟩ := List.map_eq_append_iff.1 hts
      obtain ⟨t, rs, rfl, ht, hrs⟩ := List.map_eq_cons_iff.1 hrest
      have hkind : t.kind = .comma := congrArg Prod.fst ht
      obtain ⟨hl, hlBehind⟩ := phrase_sequence_enclosed ihl hls
      obtain ⟨_, hrBehind⟩ := phrase_sequence_enclosed ihr hrs
      have hphrase : Phrase .sequence (ls ++ t :: rs) (seq l r).leftNested := hrBehind hl hkind
      refine ⟨.ofSequence hphrase, fun _ => hphrase, fun h => absurd (by simp [tightness]) h, fun hx hsemi => ?_,
        fun _ {us x c} hx hcomma => ?_⟩
      · rw [altOnto_of_tight (t := seq l r) _ (by simp [tightness])]
        exact .alt hx hsemi hphrase
      · have hchain := hrBehind (hlBehind hx hcomma) hkind
        rw [← seqOnto_assoc, List.append_assoc, List.cons_append] at hchain
        exact hchain
  | iter l r ihl ihr =>
      intro ts hts
      obtain ⟨ls, rest, rfl, hls, hrest⟩ := List.map_eq_append_iff.1 hts
      obtain ⟨t, rs, rfl, ht, hrs⟩ := List.map_eq_cons_iff.1 hrest
      have hphrase : Phrase .iteration (ls ++ t :: rs) (iter l r).leftNested :=
        .iter (.ofAtom (phrase_atom_enclosed ihl hls)) (congrArg Prod.fst ht)
          (phrase_atom_enclosed ihr hrs)
      exact .of_iteration hphrase (by simp [tightness]) fun h => absurd (by simp [tightness]) h

/-- **The text of a tree determines the tree up to the nesting of its chains.** -/
theorem leftNested_eq_of_text_eq {e f : Expr} (he : e.Legible) (hf : f.Legible)
    (h : e.text = f.text) : e.leftNested = f.leftNested := by
  have hspace : Lexes [' '] [] := Lexes.white isWhiteSpace_space Lexes.nil
  obtain ⟨hlex, _⟩ := lexes_text he (Token.parted_space []) hspace 0
  obtain ⟨hlex', _⟩ := lexes_text hf (Token.parted_space []) hspace 0
  rw [List.append_nil] at hlex hlex'
  rw [h] at hlex
  exact Reader.phrase_unique (phraseOf_tokens e _ hlex).alternative
    (phraseOf_tokens f _ hlex').alternative

end RuleGrammar.Tree
