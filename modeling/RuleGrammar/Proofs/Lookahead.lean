import RuleGrammar.Proofs.Contention
import RuleGrammar.Proofs.Expansion
import RuleGrammar.Proofs.Saturation

/-!
# What the analyses say about parse trees

A parse tree over the expanded rules shows what the three analyses are about: a tree that reads the
empty word counts as nullable, a tree that reads a word begins with its first letter, and what comes
after a reference in a word is among its followers.  The second analysis takes the lookaheads of an
iteration from its left part alone, so the second of these asks that the first letter is not read in a
right part, and the third asks that every iteration begins in its left part.

* `Grammar.Advances g t`: no iteration in `t` has a left part that derives the empty word.
* `Grammar.LedByLeft g t`: beside such a left part the right part derives no other word.
* `ParseTree.LedByLeft p`: no iteration in `p` begins in its right part; `ledByLeft_of_rules`.
* `ParseTree.BeginsLeft p`: the first letter of `p` is not read in the right part of an iteration.
* `Word.next`: the lookahead with which a word begins.
* `ParseTree.nullable_of_yield`, `ParseTree.next_mem_first`: the first two analyses.
* `ParseTree.choice_spec`: the alternative that a parse tree takes.
* `ParseTree.next_mem_beforeRight`, `ParseTree.next_mem_insideLeft`, `ParseTree.next_mem_insideRight`:
  what comes after the parts of a tree is in the contexts that the third analysis gives them.
* `Analysis.Delivers`: all that a tree in a context hands down has reached the followers.
* `ParseTree.claimed_of_ledByLeft`: the alternative taken at a reference claims the lookahead at its
  place.
-/

namespace RuleGrammar

/-- No iteration in a tree has a left part that derives the empty word. -/
def Grammar.Advances (g : Grammar) : Rule → Prop
  | .iter l r => ¬ Derives g l [] ∧ g.Advances l ∧ g.Advances r
  | .seq l r | .alt l r => g.Advances l ∧ g.Advances r
  | _ => True

/-- Beside a left part that derives the empty word, the right part of an iteration derives no other
word; so every word of an iteration begins in its left part. -/
def Grammar.LedByLeft (g : Grammar) : Rule → Prop
  | .iter l r => (Derives g l [] → ∀ w, Derives g r w → w = []) ∧ g.LedByLeft l ∧ g.LedByLeft r
  | .seq l r | .alt l r => g.LedByLeft l ∧ g.LedByLeft r
  | _ => True

/-- The lookahead with which a word begins. -/
def Word.next : Word → Lookahead
  | [] => .finish
  | t :: _ => .terminal t

/-- The lookahead at a position of a word: the letter there, or the end. -/
def Word.lookaheadAt (w : Word) (i : Nat) : Lookahead :=
  match w[i]? with
  | some t => .terminal t
  | none => .finish

theorem Word.next_append {u v : Word} (h : u ≠ []) : Word.next (u ++ v) = Word.next u := by
  cases u with
  | nil => exact absurd rfl h
  | cons t u => rfl

theorem Word.lookaheadAt_length (u v : Word) : Word.lookaheadAt (u ++ v) u.length = Word.next v := by
  rw [lookaheadAt, List.getElem?_append_right (Nat.le_refl _), Nat.sub_self]
  cases v with
  | nil => rfl
  | cons t v => rfl

theorem Grammar.Advances.ledByLeft {g : Grammar} {t : Rule} (h : g.Advances t) : g.LedByLeft t := by
  induction t with
  | iter l r ihl ihr => exact ⟨fun hl => absurd hl h.1, ihl h.2.1, ihr h.2.2⟩
  | seq l r ihl ihr | alt l r ihl ihr => exact ⟨ihl h.1, ihr h.2⟩
  | _ => trivial

namespace ParseTree

/-- No iteration begins in its right part: a round that comes after nothing was read reads nothing
before its own left part. -/
def LedByLeft {rules : Nat → Option Rule} {t : Rule} : ParseTree rules t → Prop
  | .reference _ _ _ body => body.LedByLeft
  | .seq left right => left.LedByLeft ∧ right.LedByLeft
  | .altLeft _ left => left.LedByLeft
  | .altRight _ right => right.LedByLeft
  | .iterOnce _ first => first.LedByLeft
  | .iterMore before between last =>
      (before.yield = [] → between.yield = []) ∧ before.LedByLeft ∧ between.LedByLeft ∧ last.LedByLeft
  | _ => True

/-- The first letter is not read in the right part of an iteration. -/
def BeginsLeft {rules : Nat → Option Rule} {t : Rule} : ParseTree rules t → Prop
  | .reference _ _ _ body => body.BeginsLeft
  | .seq left right => if left.yield = [] then right.BeginsLeft else left.BeginsLeft
  | .altLeft _ left => left.BeginsLeft
  | .altRight _ right => right.BeginsLeft
  | .iterOnce _ first => first.BeginsLeft
  | .iterMore before between last =>
      if before.yield = [] then between.yield = [] ∧ last.BeginsLeft else before.BeginsLeft
  | _ => True

variable {g : Grammar} {a : Analysis} {t : Rule}

/-- Where the words of all iterations begin in their left parts, those of a parse tree do. -/
theorem ledByLeft_of_rules (hg : g.WellFormed)
    (hrules : ∀ nt rule, g.expandedRule? nt = some rule → g.LedByLeft rule)
    (p : ParseTree g.tableExpandedRule? t) (ht : g.LedByLeft t) : p.LedByLeft := by
  induction p with
  | reference nt opened hrule body ih =>
      exact ih (hrules nt _ (Grammar.tableExpandedRule?_eq_some_iff.1 hrule).2)
  | seq left right ihl ihr => exact ⟨ihl ht.1, ihr ht.2⟩
  | altLeft r left ih => exact ih ht.1
  | altRight l right ih => exact ih ht.2
  | iterOnce r first ih => exact ih ht.2.1
  | iterMore before between last ihb ihw ihl =>
      refine ⟨fun hbefore => ?_, ihb ht, ihw ht.2.2, ihl ht.2.1⟩
      exact ht.1 (derives_nil_of_iter (before.derives hg) hbefore) _ (between.derives hg)
  | _ => trivial

theorem LedByLeft.beginsLeft {rules : Nat → Option Rule} {p : ParseTree rules t}
    (h : p.LedByLeft) : p.BeginsLeft := by
  induction p with
  | reference nt opened hrule body ih => exact ih h
  | seq left right ihl ihr =>
      rw [BeginsLeft]
      split
      · exact ihr h.2
      · exact ihl h.1
  | altLeft r left ih => exact ih h
  | altRight l right ih => exact ih h
  | iterOnce r first ih => exact ih h
  | iterMore before between last ihb ihw ihl =>
      rw [BeginsLeft]
      split
      · next hbefore => exact ⟨h.1 hbefore, ihl h.2.2.2⟩
      · exact ihb h.2.1
  | _ => trivial

/-! ### The first two analyses -/

/-- A tree that reads the empty word counts as deriving it. -/
theorem nullable_of_yield (ha : a.Saturated g) (p : ParseTree g.tableExpandedRule? t)
    (h : p.yield = []) : a.isNullable t = true := by
  induction p with
  | empty => rfl
  | terminal t ht => cases h
  | semantic s => rfl
  | reference nt opened hrule body ih =>
      obtain ⟨hnt, hrule⟩ := Grammar.tableExpandedRule?_eq_some_iff.1 hrule
      exact ha.nullable hnt hrule (ih h)
  | seq left right ihl ihr =>
      obtain ⟨hl, hr⟩ := List.append_eq_nil_iff.1 h
      exact Bool.and_eq_true_iff.2 ⟨ihl hl, ihr hr⟩
  | altLeft r left ih => exact Bool.or_eq_true_iff.2 (Or.inl (ih h))
  | altRight l right ih => exact Bool.or_eq_true_iff.2 (Or.inr (ih h))
  | iterOnce r first ih => rfl
  | iterMore before between last ihb ihw ihl => rfl

/-- A tree that reads a word begins with the first letter of the word. -/
theorem next_mem_first (ha : a.Saturated g) (p : ParseTree g.tableExpandedRule? t)
    (hp : p.BeginsLeft) (h : p.yield ≠ []) : (Word.next p.yield).slot ∈ a.firstOf t := by
  induction p with
  | empty => exact absurd rfl h
  | terminal t hne =>
      show _ ∈ if t = 0 then NumberSet.empty else NumberSet.singleton (Lookahead.terminal t).slot
      rw [if_neg hne]
      exact NumberSet.mem_singleton.2 rfl
  | semantic s => exact absurd rfl h
  | reference nt opened hrule body ih =>
      obtain ⟨hnt, hrule⟩ := Grammar.tableExpandedRule?_eq_some_iff.1 hrule
      exact ha.first hnt hrule (ih hp h)
  | seq left right ihl ihr =>
      refine Tree.mem_first_seq.2 ?_
      by_cases hleft : left.yield = []
      · have hsame : (seq left right).yield = right.yield := by rw [yield, hleft, List.nil_append]
        rw [BeginsLeft, if_pos hleft] at hp
        rw [hsame] at h ⊢
        exact Or.inr ⟨nullable_of_yield ha left hleft, ihr hp h⟩
      · rw [BeginsLeft, if_neg hleft] at hp
        rw [yield, Word.next_append hleft]
        exact Or.inl (ihl hp hleft)
  | altLeft r left ih => exact NumberSet.mem_union.2 (Or.inl (ih hp h))
  | altRight l right ih => exact NumberSet.mem_union.2 (Or.inr (ih hp h))
  | iterOnce r first ih => exact ih hp h
  | iterMore before between last ihb ihw ihl =>
      by_cases hbefore : before.yield = []
      · -- then the round in between is empty as well, and the word begins in the last left part
        rw [BeginsLeft, if_pos hbefore] at hp
        have hsame : (iterMore before between last).yield = last.yield := by
          rw [yield, hbefore, hp.1, List.nil_append, List.nil_append]
        rw [hsame] at h ⊢
        exact ihl hp.2 h
      · rw [BeginsLeft, if_neg hbefore] at hp
        rw [yield, List.append_assoc, Word.next_append hbefore]
        exact ihb hp hbefore

/-! ### The alternative that is taken -/

/-- The references of a parse tree are to nonterminals of the table. -/
theorem lt_of_mem_expansions {nt k i : Nat} (p : ParseTree g.tableExpandedRule? t) :
    ∀ {start : Nat}, (nt, k, i) ∈ p.expansions start → nt < g.nonterminals.size := by
  induction p with
  | reference m opened hrule body ih =>
      intro start hmem
      rcases List.mem_cons.1 hmem with heq | hmem
      · cases heq
        exact (Grammar.tableExpandedRule?_eq_some_iff.1 hrule).1
      · exact ih hmem
  | seq left right ihl ihr =>
      intro start hmem
      rcases List.mem_append.1 hmem with hmem | hmem
      · exact ihl hmem
      · exact ihr hmem
  | altLeft r left ih =>
      intro start hmem
      exact ih hmem
  | altRight l right ih =>
      intro start hmem
      exact ih hmem
  | iterOnce r first ih =>
      intro start hmem
      exact ih hmem
  | iterMore before between last ihb ihw ihl =>
      intro start hmem
      rw [expansions, List.append_assoc] at hmem
      rcases List.mem_append.1 hmem with hmem | hmem
      · exact ihb hmem
      rcases List.mem_append.1 hmem with hmem | hmem
      · exact ihw hmem
      · exact ihl hmem
  | _ =>
      intro start hmem
      cases hmem

/-- The alternative with the number that a parse tree takes reads the same word in the same way. -/
theorem choice_spec {rules : Nat → Option Rule} (p : ParseTree rules t) :
    ∃ alternative, t.alternatives[p.choice]? = some alternative ∧
      ∃ q : ParseTree rules alternative, q.yield = p.yield ∧ (p.LedByLeft → q.LedByLeft) := by
  induction p with
  | altLeft r left ih =>
      obtain ⟨alternative, hget, q, hq⟩ := ih
      refine ⟨alternative, ?_, q, hq⟩
      rw [choice, Tree.alternatives, List.getElem?_append_left (List.getElem?_eq_some_iff.1 hget).1]
      exact hget
  | altRight l right ih =>
      obtain ⟨alternative, hget, q, hq⟩ := ih
      refine ⟨alternative, ?_, q, hq⟩
      rw [choice, Tree.alternatives, List.getElem?_append_right (Nat.le_add_right ..),
        Nat.add_sub_cancel_left]
      exact hget
  | empty => exact ⟨_, rfl, .empty, rfl, id⟩
  | terminal t ht => exact ⟨_, rfl, .terminal t ht, rfl, id⟩
  | semantic s => exact ⟨_, rfl, .semantic s, rfl, id⟩
  | reference nt opened h body => exact ⟨_, rfl, .reference nt opened h body, rfl, id⟩
  | seq left right => exact ⟨_, rfl, .seq left right, rfl, id⟩
  | iterOnce r first => exact ⟨_, rfl, .iterOnce r first, rfl, id⟩
  | iterMore before between last => exact ⟨_, rfl, .iterMore before between last, rfl, id⟩

end ParseTree

namespace Analysis

/-- The context of a left part hands down no more than the context of its iteration. -/
theorem handed_insideLeft {nullable : Flags} {first : LookaheadSets} {l r : Rule}
    {context : LookaheadSet} {m x : Nat}
    (h : Handed nullable first (.iter l r) (insideLeft nullable first l r context) m x) :
    Handed nullable first (.iter l r) context m x := by
  refine h.imp (Handed.mono fun hx => ?_) (Handed.mono fun hx => ?_)
  · rw [mem_insideLeft] at hx
    exact hx.elim id fun hx => mem_insideLeft.2 (Or.inr hx)
  · rw [mem_insideRight, mem_insideLeft] at hx
    rw [mem_insideRight]
    rcases hx with hx | ⟨hnull, (hx | hx | ⟨_, hx⟩) | hx⟩
    · exact Or.inl hx
    · exact Or.inr ⟨hnull, Or.inl hx⟩
    · exact Or.inr ⟨hnull, Or.inr hx⟩
    · exact Or.inl hx
    · exact Or.inr ⟨hnull, Or.inr hx⟩

/-- All that a tree in a context hands down has reached the followers. -/
def Delivers (a : Analysis) (g : Grammar) (t : Rule) (context : LookaheadSet) : Prop :=
  ∀ m x, m < g.nonterminals.size →
    Handed a.nullableRun.value a.firstRun.value t context m x → x ∈ a.follow m

theorem Saturated.delivers {g : Grammar} {a : Analysis} (ha : a.Saturated g) {nt : Nat} {rule : Rule}
    (hnt : nt < g.nonterminals.size) (hrule : g.expandedRule? nt = some rule) :
    a.Delivers g rule (a.follow nt) :=
  fun _ _ hm hx => ha.follow hnt hrule hm hx

theorem delivers_reference (a : Analysis) (g : Grammar) (nt : Nat) (opened : Bool) :
    a.Delivers g (.reference nt opened) (a.follow nt) := by
  intro m x _ hx
  rw [hx.1]
  exact hx.2

namespace Delivers

variable {g : Grammar} {a : Analysis} {l r : Rule} {context : LookaheadSet}

theorem mem_follow {nt x : Nat} {opened : Bool} (h : a.Delivers g (.reference nt opened) context)
    (hnt : nt < g.nonterminals.size) (hx : x ∈ context) : x ∈ a.follow nt :=
  h nt x hnt ⟨rfl, hx⟩

theorem seqLeft (h : a.Delivers g (.seq l r) context) :
    a.Delivers g l (beforeRight a.nullableRun.value a.firstRun.value r context) :=
  fun m x hm hx => h m x hm (Or.inl hx)

theorem seqRight (h : a.Delivers g (.seq l r) context) : a.Delivers g r context :=
  fun m x hm hx => h m x hm (Or.inr hx)

theorem altLeft (h : a.Delivers g (.alt l r) context) : a.Delivers g l context :=
  fun m x hm hx => h m x hm (Or.inl hx)

theorem altRight (h : a.Delivers g (.alt l r) context) : a.Delivers g r context :=
  fun m x hm hx => h m x hm (Or.inr hx)

theorem iterLeft (h : a.Delivers g (.iter l r) context) :
    a.Delivers g l (insideLeft a.nullableRun.value a.firstRun.value l r context) :=
  fun m x hm hx => h m x hm (Or.inl hx)

theorem iterRight (h : a.Delivers g (.iter l r) context) :
    a.Delivers g r (insideRight a.nullableRun.value a.firstRun.value l r context) :=
  fun m x hm hx => h m x hm (Or.inr hx)

/-- The rounds before another one stand in the context of a left part. -/
theorem iterBefore (h : a.Delivers g (.iter l r) context) : a.Delivers g (.iter l r)
    (insideLeft a.nullableRun.value a.firstRun.value l r context) :=
  fun m x hm hx => h m x hm (handed_insideLeft hx)

end Delivers

end Analysis

namespace Prediction

/-- An alternative of a nonterminal claims a lookahead. -/
def Claimed (g : Grammar) (a : Analysis) (nt k : Nat) (lookahead : Lookahead) : Prop :=
  ∃ alternative, (alternativesOf g nt)[k]? = some alternative ∧
    lookahead.slot ∈ predictionSet a nt alternative

end Prediction

namespace ParseTree

open Analysis Prediction

variable {g : Grammar} {a : Analysis} {t : Rule}

/-! ### What comes next -/

section

variable (ha : a.Saturated g) {l r : Rule} {context : LookaheadSet} {after : Word}

include ha

/-- A set that holds what a tree begins with, and if the tree counts as nullable what comes after it,
holds what comes at the place of the tree. -/
theorem next_append_mem (p : ParseTree g.tableExpandedRule? t) (hp : p.LedByLeft)
    {set : LookaheadSet} (hfirst : ∀ x, x ∈ a.firstOf t → x ∈ set)
    (hafter : a.isNullable t = true → (Word.next after).slot ∈ set) :
    (Word.next (p.yield ++ after)).slot ∈ set := by
  by_cases h : p.yield = []
  · rw [h, List.nil_append]
    exact hafter (nullable_of_yield ha p h)
  · rw [Word.next_append h]
    exact hfirst _ (next_mem_first ha p hp.beginsLeft h)

/-- What comes after the left part of a sequence is in its context. -/
theorem next_mem_beforeRight (right : ParseTree g.tableExpandedRule? r) (hright : right.LedByLeft)
    (hafter : (Word.next after).slot ∈ context) : (Word.next (right.yield ++ after)).slot ∈
      beforeRight a.nullableRun.value a.firstRun.value r context :=
  next_append_mem ha right hright (fun _ hx => mem_beforeRight.2 (Or.inl hx))
    fun hnull => mem_beforeRight.2 (Or.inr ⟨hnull, hafter⟩)

/-- What comes after the right part of an iteration is in its context. -/
theorem next_mem_insideRight (last : ParseTree g.tableExpandedRule? l) (hlast : last.LedByLeft)
    (hafter : (Word.next after).slot ∈ context) : (Word.next (last.yield ++ after)).slot ∈
      insideRight a.nullableRun.value a.firstRun.value l r context :=
  next_append_mem ha last hlast (fun _ hx => mem_insideRight.2 (Or.inl hx))
    fun hnull => mem_insideRight.2 (Or.inr ⟨hnull, Or.inl hafter⟩)

/-- What comes after the left part of an iteration that goes on is in its context. -/
theorem next_mem_insideLeft (between : ParseTree g.tableExpandedRule? r)
    (last : ParseTree g.tableExpandedRule? l) (hbetween : between.LedByLeft)
    (hlast : last.LedByLeft) (hafter : (Word.next after).slot ∈ context) :
    (Word.next (between.yield ++ (last.yield ++ after))).slot ∈
      insideLeft a.nullableRun.value a.firstRun.value l r context := by
  refine next_append_mem ha between hbetween
    (fun x hx => mem_insideLeft.2 (Or.inr (Or.inl hx))) fun hnull => ?_
  exact next_append_mem ha last hlast
    (fun x hx => mem_insideLeft.2 (Or.inr (Or.inr ⟨hnull, hx⟩)))
    fun _ => mem_insideLeft.2 (Or.inl hafter)

/-- The alternative that a rule takes claims the lookahead at its place, if what comes after it is
among the followers of the nonterminal. -/
theorem claimed_of_body {nt : Nat} (hrule : g.expandedRule? nt = some t)
    (body : ParseTree g.tableExpandedRule? t) (hbody : body.LedByLeft)
    (hafter : (Word.next after).slot ∈ a.follow nt) :
    Claimed g a nt body.choice (Word.next (body.yield ++ after)) := by
  obtain ⟨alternative, hget, q, hyield, hled⟩ := body.choice_spec
  refine ⟨alternative, by rw [alternativesOf, hrule]; exact hget, ?_⟩
  rw [← hyield]
  refine next_append_mem ha q (hled hbody) (fun x hx => mem_predictionSet.2 (Or.inl hx)) ?_
  intro hnull
  exact mem_predictionSet.2 (Or.inr ⟨hnull, hafter⟩)

/-- **Every alternative that a parse tree takes claims the lookahead at its place.**  The context holds
what comes after the parse tree, and all that is handed down from it reaches the followers. -/
theorem claimed_of_ledByLeft (p : ParseTree g.tableExpandedRule? t) :
    ∀ (before after : Word) (context : LookaheadSet), p.LedByLeft → a.Delivers g t context →
      (Word.next after).slot ∈ context → ∀ nt k i, (nt, k, i) ∈ p.expansions before.length →
        Claimed g a nt k (Word.lookaheadAt (before ++ p.yield ++ after) i) := by
  induction p with
  | reference nt opened hrule body ih =>
      intro before after context hp hdown hafter m k i hmem
      obtain ⟨hnt, hrule⟩ := Grammar.tableExpandedRule?_eq_some_iff.1 hrule
      have hfollow := hdown.mem_follow hnt hafter
      rcases List.mem_cons.1 hmem with heq | hmem
      · cases heq
        rw [List.append_assoc, Word.lookaheadAt_length]
        exact claimed_of_body ha hrule body hp hfollow
      · exact ih before after (a.follow nt) hp (ha.delivers hnt hrule) hfollow m k i hmem
  | @seq l r left right ihl ihr =>
      intro before after context hp hdown hafter m k i hmem
      rcases List.mem_append.1 hmem with hmem | hmem
      · have hclaim := ihl before (right.yield ++ after) _ hp.1 hdown.seqLeft
          (next_mem_beforeRight ha right hp.2 hafter) m k i hmem
        simpa only [yield, List.append_assoc] using hclaim
      · rw [← List.length_append] at hmem
        have hclaim := ihr (before ++ left.yield) after context hp.2 hdown.seqRight hafter m k i hmem
        simpa only [yield, List.append_assoc] using hclaim
  | altLeft r left ih =>
      intro before after context hp hdown hafter m k i hmem
      exact ih before after context hp hdown.altLeft hafter m k i hmem
  | altRight l right ih =>
      intro before after context hp hdown hafter m k i hmem
      exact ih before after context hp hdown.altRight hafter m k i hmem
  | iterOnce r first ih =>
      intro before after context hp hdown hafter m k i hmem
      exact ih before after _ hp hdown.iterLeft (mem_insideLeft.2 (Or.inl hafter)) m k i hmem
  | @iterMore l r first between last ihf ihb ihl =>
      intro before after context hp hdown hafter m k i hmem
      obtain ⟨_, hfirst, hbetween, hlast⟩ := hp
      rw [expansions, List.append_assoc] at hmem
      rcases List.mem_append.1 hmem with hmem | hmem
      · have hclaim := ihf before (between.yield ++ (last.yield ++ after)) _ hfirst hdown.iterBefore
          (next_mem_insideLeft ha between last hbetween hlast hafter) m k i hmem
        simpa only [yield, List.append_assoc] using hclaim
      rcases List.mem_append.1 hmem with hmem | hmem
      · rw [← List.length_append] at hmem
        have hclaim := ihb (before ++ first.yield) (last.yield ++ after) _ hbetween hdown.iterRight
          (next_mem_insideRight ha last hlast hafter) m k i hmem
        simpa only [yield, List.append_assoc] using hclaim
      · rw [← List.length_append, ← List.length_append] at hmem
        have hclaim := ihl (before ++ first.yield ++ between.yield) after _ hlast hdown.iterLeft
          (mem_insideLeft.2 (Or.inl hafter)) m k i hmem
        simpa only [yield, List.append_assoc] using hclaim
  | _ =>
      intro before after context _ _ _ m k i hmem
      cases hmem

end

/-- The same where no left part of an iteration derives the empty word. -/
theorem claimed_of_mem_expansions (hg : g.WellFormed) (ha : a.Saturated g)
    (hrules : ∀ nt rule, g.expandedRule? nt = some rule → g.Advances rule)
    (p : ParseTree g.tableExpandedRule? t) (before after : Word) (context : LookaheadSet)
    (ht : g.Advances t) (hdown : a.Delivers g t context)
    (hafter : (Word.next after).slot ∈ context) (nt k i : Nat)
    (hmem : (nt, k, i) ∈ p.expansions before.length) :
    Claimed g a nt k (Word.lookaheadAt (before ++ p.yield ++ after) i) :=
  p.claimed_of_ledByLeft ha before after context
    (p.ledByLeft_of_rules hg (fun nt rule hrule => (hrules nt rule hrule).ledByLeft) ht.ledByLeft)
    hdown hafter nt k i hmem

end ParseTree

end RuleGrammar
