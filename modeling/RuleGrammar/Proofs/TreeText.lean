import RuleGrammar.Proofs.Numbering
import RuleGrammar.Proofs.Rereading

/-!
# The text of a tree tells the tree

Parentheses are written only where they are needed, so a chain of sequences or of alternatives has the
same text however it is nested.  Nothing else is lost: trees over the tables of a grammar that comes up
have the same text exactly if they are the same once all chains are nested to the left.  Factoring relies
on this when it compares the parts of alternatives by their texts.

* `Tree.text_leftNested`: the nesting of chains leaves no trace in the text.
* `Tree.rename_leftNested`: it has nothing to do with the symbols.
* `derives_leftNested_iff`: nor with the words.
* `Grammar.ruleText_eq_iff_of_readable`: equal texts, for names that can be read back.
* `Grammar.ruleText_identifies_tree`: equal texts, for every grammar that comes up.
-/

namespace RuleGrammar

/-! ### Nesting leaves no trace -/

namespace Tree

theorem text_seq (l r : Expr) : (Tree.seq l r).text
    = bracketed (l.tightness < 1) l.text ++ " , " ++ bracketed (r.tightness < 1) r.text := rfl

theorem text_alt (l r : Expr) : (Tree.alt l r).text = l.text ++ " ; " ++ r.text := rfl

theorem text_iter (l r : Expr) : (Tree.iter l r).text
    = bracketed (l.tightness < 3) l.text ++ " # " ++ bracketed (r.tightness < 3) r.text := rfl

theorem tightness_seqOnto {α : Type} (l r : Tree α) : (seqOnto l r).tightness = 1 := by
  cases r <;> rfl

/-- A sequence is written the same way, whichever end of a chain its left part goes onto. -/
theorem text_seqOnto (l r : Expr) : (seqOnto l r).text = (Tree.seq l r).text := by
  induction r with
  | seq m r ihm _ =>
      have hopen : bracketed (decide ((seqOnto l m).tightness < 1)) (seqOnto l m).text
          = (Tree.seq l m).text := by
        rw [tightness_seqOnto, ihm]
        rfl
      have hchain : bracketed (decide ((Tree.seq m r).tightness < 1)) (Tree.seq m r).text
          = (Tree.seq m r).text := rfl
      rw [seqOnto, text_seq, hopen, text_seq l (Tree.seq m r), hchain, text_seq l m, text_seq m r]
      simp only [String.append_assoc]
  | _ => rfl

/-- Alternatives are written the same way, whichever end of a chain their left part goes onto. -/
theorem text_altOnto (l r : Expr) : (altOnto l r).text = (Tree.alt l r).text := by
  induction r with
  | alt m r ihm _ =>
      rw [altOnto, text_alt, ihm, text_alt, text_alt, text_alt]
      simp only [String.append_assoc]
  | _ => rfl

/-- **The nesting of chains leaves no trace in the text.** -/
theorem text_leftNested (e : Expr) : e.leftNested.text = e.text := by
  induction e with
  | seq l r ihl ihr =>
      rw [leftNested, text_seqOnto, text_seq, text_seq, ihl, ihr, tightness_leftNested,
        tightness_leftNested]
  | alt l r ihl ihr => rw [leftNested, text_altOnto, text_alt, text_alt, ihl, ihr]
  | iter l r ihl ihr =>
      rw [leftNested, text_iter, text_iter, ihl, ihr, tightness_leftNested, tightness_leftNested]
  | _ => rfl

/-! ### Nesting has nothing to do with symbols -/

variable {α β : Type} {f s n : α → β}

theorem rename_seqOnto (l r : Tree α) :
    (seqOnto l r).rename f s n = seqOnto (l.rename f s n) (r.rename f s n) := by
  induction r with
  | seq m r ihm _ => simp only [seqOnto, rename, ihm]
  | _ => rfl

theorem rename_altOnto (l r : Tree α) :
    (altOnto l r).rename f s n = altOnto (l.rename f s n) (r.rename f s n) := by
  induction r with
  | alt m r ihm _ => simp only [altOnto, rename, ihm]
  | _ => rfl

/-- Other symbols in the same places make the same chains. -/
theorem rename_leftNested (t : Tree α) : t.leftNested.rename f s n = (t.rename f s n).leftNested := by
  induction t with
  | seq l r ihl ihr => rw [leftNested, rename_seqOnto, ihl, ihr, rename, leftNested]
  | alt l r ihl ihr => rw [leftNested, rename_altOnto, ihl, ihr, rename, leftNested]
  | iter l r ihl ihr => simp only [leftNested, rename, ihl, ihr]
  | _ => rfl

end Tree

theorem derives_leftNested_iff {g : Grammar} {t : Rule} {w : Word} :
    Derives g t.leftNested w ↔ Derives g t w := by
  rw [derives_iff_spells, derives_iff_spells, Tree.spells_leftNested]

/-! ### Trees over the tables of a grammar -/

namespace Grammar

variable {g : Grammar} {t u : Rule}

/-- Trees that are the same up to the nesting of chains have the same text. -/
theorem ruleText_eq_of_leftNested_eq (h : t.leftNested = u.leftNested) :
    g.ruleText t = g.ruleText u := by
  have hnamed : (g.named t).leftNested = (g.named u).leftNested := by
    rw [named, named, ← Tree.rename_leftNested, ← Tree.rename_leftNested, h]
  calc g.ruleText t = (g.named t).leftNested.text := (Tree.text_leftNested _).symm
    _ = (g.named u).leftNested.text := by rw [hnamed]
    _ = g.ruleText u := Tree.text_leftNested _

/-- A covered tree is found again behind its names, also once its chains are nested to the left. -/
theorem lowered_leftNested_named (ht : g.Covers t) :
    g.lowered (g.named t).leftNested = t.leftNested := by
  have hback : g.lowered (g.named t) = t := lowered_named ht
  rw [lowered, Tree.rename_leftNested, ← lowered, hback]

/-- **Equal texts.**  If the names of a grammar can be read back, trees over its tables have the same text
if and only if they are the same up to the nesting of chains. -/
theorem ruleText_eq_iff_of_readable (hg : g.Readable) (ht : g.Covers t) (hu : g.Covers u) :
    g.ruleText t = g.ruleText u ↔ t.leftNested = u.leftNested := by
  refine ⟨fun h => ?_, ruleText_eq_of_leftNested_eq⟩
  have hnested := Tree.leftNested_eq_of_text_eq (legible_named hg ht) (legible_named hg hu) h
  rw [← lowered_leftNested_named ht, hnested, lowered_leftNested_named hu]

/-- **The text of a tree identifies it up to the nesting of chains.**  In every grammar that is read from
a text and revised any number of times, two trees over its tables have the same text if and only if they
become equal when all chains of sequences and of alternatives are nested to the left.  So trees with the
same text derive the same words, and the recognizer answers alike for them. -/
theorem ruleText_identifies_tree (hg : g.Obtained) (ht : g.Covers t) (hu : g.Covers u) :
    (g.ruleText t = g.ruleText u ↔ t.leftNested = u.leftNested) ∧
      (g.ruleText t = g.ruleText u →
        ∀ w, (Derives g t w ↔ Derives g u w) ∧ g.recognizes t w = g.recognizes u w) := by
  have hiff := ruleText_eq_iff_of_readable hg.orderly.readable ht hu
  refine ⟨hiff, fun h w => ?_⟩
  have hwords : Derives g t w ↔ Derives g u w := by
    rw [← derives_leftNested_iff, hiff.1 h, derives_leftNested_iff]
  refine ⟨hwords, ?_⟩
  rw [Bool.eq_iff_iff, recognizes_iff, recognizes_iff]
  exact hwords

/-- Left recursion, alternatives with a common front, and terminals that hold quotes of either kind. -/
def quotesText : String := "S : S , '\"' ; \"it's\" , S ; \"it's\" , 'b' ."

def quotes : Grammar := (build quotesText).toOption.getD Grammar.empty

theorem build_quotesText : build quotesText = .ok quotes := build_eq_ok_of_toOption (by decide +kernel)

def revisedQuotes : Grammar := (Transform.applyAll quotes Transform.all).grammar

theorem obtained_revisedQuotes : revisedQuotes.Obtained :=
  (((Obtained.build build_quotesText).transform .leftRecursion).transform .factorize).transform .useless

def nestedRight : Rule := .seq (.terminal 2) (.seq (.iter (.terminal 1) (.reference 0 false))
  (.seq (.terminal 3) (.reference 2 true)))

def nestedBoth : Rule := .seq (.seq (.terminal 2) (.iter (.terminal 1) (.reference 0 false)))
  (.seq (.terminal 3) (.reference 2 true))

/-- A chain of the same leaves, two of which are grouped inside the iteration. -/
def grouped : Rule := .seq (.terminal 2) (.seq (.iter (.terminal 1)
  (.seq (.reference 0 false) (.terminal 3))) (.reference 2 true))

/-- Over the two new names that the transforms make, a chain has one text however it is nested, and
parentheses inside it make another one. -/
theorem ruleText_identifies_tree_quotes :
    revisedQuotes.nonterminals.names = #["S", "S_rec", "S_fac"] ∧
      revisedQuotes.ruleText nestedRight = "\"it's\" , '\"' # S , 'b' , %S_fac" ∧
      revisedQuotes.ruleText nestedRight = revisedQuotes.ruleText nestedBoth ∧
      revisedQuotes.ruleText nestedRight ≠ revisedQuotes.ruleText grouped ∧
      ∀ w, Derives revisedQuotes nestedRight w ↔ Derives revisedQuotes nestedBoth w := by
  have hright : revisedQuotes.Covers nestedRight := by decide +kernel
  obtain ⟨hsame, hwords⟩ := ruleText_identifies_tree obtained_revisedQuotes hright
    (show revisedQuotes.Covers nestedBoth by decide +kernel)
  obtain ⟨hother, _⟩ := ruleText_identifies_tree obtained_revisedQuotes hright
    (show revisedQuotes.Covers grouped by decide +kernel)
  have htext : revisedQuotes.ruleText nestedRight = revisedQuotes.ruleText nestedBoth :=
    hsame.2 (by decide +kernel)
  have hne : nestedRight.leftNested ≠ grouped.leftNested := by decide +kernel
  exact ⟨by decide +kernel, by decide +kernel, htext, fun heq => hne (hother.1 heq),
    fun w => (hwords htext w).1⟩

end Grammar

end RuleGrammar
