import RuleGrammar.Proofs.Prediction

/-!
# What a table without conflicts leaves open

A table compares the topmost alternatives of each rule and nothing else.  So if it has no conflicts, a
word decides which of these a parse tree takes; but the sides of the alternatives further inside a rule
and the rounds of its iterations are free.  Two parse trees of one word that agree on these are the
same.

* `ParseTree.innerChoices`: the choices that a table does not compare.
* `ParseTree.eq_of_yield_of_innerChoices`: two parse trees in the same place that read the same text.
* `Tree.isStraight`: a tree without such choices; `ParseTree.innerChoices_of_straight`.
* `Prediction.parseTree_unique_of_isLL1`: the parse trees of the start symbol.
* `Prediction.isLL1_leaves_open`: three grammars without conflicts in which words have two parse trees.
-/

namespace RuleGrammar

/-- Whether a tree has no iterations, and alternatives at most at its top. -/
def Tree.isStraight {α : Type} (top : Bool) : Tree α → Bool
  | .seq l r => l.isStraight false && r.isStraight false
  | .alt l r => top && l.isStraight true && r.isStraight true
  | .iter _ _ => false
  | _ => true

namespace ParseTree

/-- The choices inside of rules, from left to right: the sides taken at alternatives that are not
among the topmost ones, and whether iterations go on.  `top` says whether the tree stands at the top of
a rule. -/
def innerChoices {rules : Nat → Option Rule} {t : Rule} (top : Bool) : ParseTree rules t → List Bool
  | .reference _ _ _ body => body.innerChoices true
  | .seq left right => left.innerChoices false ++ right.innerChoices false
  | .altLeft _ left =>
      if top then left.innerChoices true else false :: left.innerChoices false
  | .altRight _ right =>
      if top then right.innerChoices true else true :: right.innerChoices false
  | .iterOnce _ first => false :: first.innerChoices false
  | .iterMore before between last =>
      true :: (before.innerChoices false ++ (between.innerChoices false ++ last.innerChoices false))
  | _ => []

theorem choice_lt {rules : Nat → Option Rule} {t : Rule} (p : ParseTree rules t) :
    p.choice < t.alternatives.length := by
  obtain ⟨alternative, hget, _⟩ := p.choice_spec
  exact (List.getElem?_eq_some_iff.1 hget).1

/-- Over straight rules there are no choices inside of rules, and no iterations. -/
theorem innerChoices_of_straight {rules : Nat → Option Rule} {t : Rule}
    (hrules : ∀ nt rule, rules nt = some rule → rule.isStraight true = true)
    (p : ParseTree rules t) :
    ∀ top : Bool, t.isStraight top = true → p.innerChoices top = [] ∧ p.LedByLeft := by
  induction p with
  | reference nt opened hrule body ih =>
      intro top _
      exact ih true (hrules nt _ hrule)
  | seq left right ihl ihr =>
      intro top ht
      obtain ⟨hl, hr⟩ := Bool.and_eq_true_iff.1 ht
      obtain ⟨hleft, hledLeft⟩ := ihl false hl
      obtain ⟨hright, hledRight⟩ := ihr false hr
      exact ⟨by rw [innerChoices, hleft, hright, List.nil_append], hledLeft, hledRight⟩
  | altLeft r left ih =>
      intro top ht
      simp only [Tree.isStraight, Bool.and_eq_true] at ht
      rw [innerChoices, if_pos ht.1.1]
      exact ih true ht.1.2
  | altRight l right ih =>
      intro top ht
      simp only [Tree.isStraight, Bool.and_eq_true] at ht
      rw [innerChoices, if_pos ht.1.1]
      exact ih true ht.2
  | iterOnce r first ih =>
      intro top ht
      cases ht
  | iterMore before between last =>
      intro top ht
      cases ht
  | _ =>
      intro top _
      exact ⟨rfl, trivial⟩

open Analysis Prediction

variable {g : Grammar} {a : Analysis} {t : Rule}

/-- Where the table has no conflicts, two parse trees of a rule that read the same text take the same
topmost alternative. -/
theorem choice_eq_of_yield (ha : a.Saturated g) (hll : (ofAnalysis g a).isLL1 = true) {nt : Nat}
    (hnt : nt < g.nonterminals.size) (hrule : g.expandedRule? nt = some t)
    {p q : ParseTree g.tableExpandedRule? t} (hp : p.LedByLeft) (hq : q.LedByLeft) {u v : Word}
    (hu : (Word.next u).slot ∈ a.follow nt) (hv : (Word.next v).slot ∈ a.follow nt)
    (h : p.yield ++ u = q.yield ++ v) : p.choice = q.choice := by
  have hleft := (get?_of_claimed hnt (claimed_of_body ha hrule p hp hu)).2 hll
  have hright := (get?_of_claimed hnt (claimed_of_body ha hrule q hq hv)).2 hll
  rw [h, hright] at hleft
  exact (Option.some.inj hleft).symm

/-- **Two parse trees that read the same text with the same inner choices are the same.**  They stand
in the same context, which holds what comes after each of them, and all that is handed down from it
reaches the followers.  At the top of a rule they take the same alternative. -/
theorem eq_of_yield_of_innerChoices (ha : a.Saturated g) (hll : (ofAnalysis g a).isLL1 = true)
    (p : ParseTree g.tableExpandedRule? t) :
    ∀ (q : ParseTree g.tableExpandedRule? t) (top : Bool) (context : LookaheadSet) (u v : Word)
      (cs ds : List Bool), p.LedByLeft → q.LedByLeft → a.Delivers g t context →
      (Word.next u).slot ∈ context → (Word.next v).slot ∈ context →
      (top = true → p.choice = q.choice) → p.yield ++ u = q.yield ++ v →
      p.innerChoices top ++ cs = q.innerChoices top ++ ds → p = q := by
  -- texts and choices are compared with what comes after them, since it is not known beforehand that
  -- the left parts of two trees end at the same place
  induction p with
  | empty =>
      intro q top context u v cs ds _ _ _ _ _ _ _ _
      cases q with
      | empty => rfl
      | terminal _ h => exact absurd rfl h
  | terminal t ht =>
      intro q top context u v cs ds _ _ _ _ _ _ _ _
      cases q with
      | empty => exact absurd rfl ht
      | terminal => rfl
  | semantic s =>
      intro q top context u v cs ds _ _ _ _ _ _ _ _
      cases q
      rfl
  | reference nt opened hrule body ih =>
      intro q top context u v cs ds hp hq hdown hu hv _ hyield hchoices
      cases q with
      | reference _ _ hrule' body' =>
          cases hrule.symm.trans hrule'
          obtain ⟨hnt, hexpanded⟩ := Grammar.tableExpandedRule?_eq_some_iff.1 hrule
          have hu := hdown.mem_follow hnt hu
          have hv := hdown.mem_follow hnt hv
          have hchoice := choice_eq_of_yield ha hll hnt hexpanded hp hq hu hv hyield
          rw [ih body' true (a.follow nt) u v cs ds hp hq (ha.delivers hnt hexpanded) hu hv
            (fun _ => hchoice) hyield hchoices]
  | seq left right ihl ihr =>
      intro q top context u v cs ds hp hq hdown hu hv _ hyield hchoices
      cases q with
      | seq left' right' =>
          simp only [yield, innerChoices, List.append_assoc] at hyield hchoices
          have hleft := ihl left' false _ _ _ _ _ hp.1 hq.1 hdown.seqLeft
            (next_mem_beforeRight ha right hp.2 hu) (next_mem_beforeRight ha right' hq.2 hv)
            Bool.false_ne_true.elim hyield hchoices
          subst hleft
          rw [ihr right' false context u v cs ds hp.2 hq.2 hdown.seqRight hu hv Bool.false_ne_true.elim
            (List.append_cancel_left hyield) (List.append_cancel_left hchoices)]
  | altLeft r left ih =>
      intro q top context u v cs ds hp hq hdown hu hv htop hyield hchoices
      cases q with
      | altLeft _ left' =>
          cases top with
          | true =>
              rw [ih left' true context u v cs ds hp hq hdown.altLeft hu hv htop hyield hchoices]
          | false =>
              rw [ih left' false context u v cs ds hp hq hdown.altLeft hu hv Bool.false_ne_true.elim hyield
                (List.cons.inj hchoices).2]
      | altRight _ right' =>
          cases top with
          | true =>
              have hlt := left.choice_lt
              have hchoice : left.choice = _ + right'.choice := htop rfl
              omega
          | false => cases (List.cons.inj hchoices).1
  | altRight l right ih =>
      intro q top context u v cs ds hp hq hdown hu hv htop hyield hchoices
      cases q with
      | altLeft _ left' =>
          cases top with
          | true =>
              have hlt := left'.choice_lt
              have hchoice : _ + right.choice = left'.choice := htop rfl
              omega
          | false => cases (List.cons.inj hchoices).1
      | altRight _ right' =>
          cases top with
          | true =>
              have hchoice : _ + right.choice = _ + right'.choice := htop rfl
              rw [ih right' true context u v cs ds hp hq hdown.altRight hu hv
                (fun _ => Nat.add_left_cancel hchoice) hyield hchoices]
          | false =>
              rw [ih right' false context u v cs ds hp hq hdown.altRight hu hv Bool.false_ne_true.elim hyield
                (List.cons.inj hchoices).2]
  | iterOnce r first ih =>
      intro q top context u v cs ds hp hq hdown hu hv _ hyield hchoices
      cases q with
      | iterOnce _ first' =>
          rw [ih first' false _ u v cs ds hp hq hdown.iterLeft
            (mem_insideLeft.2 (Or.inl hu)) (mem_insideLeft.2 (Or.inl hv)) Bool.false_ne_true.elim hyield
            (List.cons.inj hchoices).2]
      | iterMore => cases (List.cons.inj hchoices).1
  | iterMore before between last ihb ihw ihl =>
      intro q top context u v cs ds hp hq hdown hu hv _ hyield hchoices
      cases q with
      | iterOnce => cases (List.cons.inj hchoices).1
      | iterMore before' between' last' =>
          obtain ⟨_, hbefore, hbetween, hlast⟩ := hp
          obtain ⟨_, hbefore', hbetween', hlast'⟩ := hq
          simp only [yield, innerChoices, List.append_assoc, List.cons_append, List.cons.injEq,
            true_and] at hyield hchoices
          have heq := ihb before' false _ _ _ _ _ hbefore hbefore' hdown.iterBefore
            (next_mem_insideLeft ha between last hbetween hlast hu)
            (next_mem_insideLeft ha between' last' hbetween' hlast' hv) Bool.false_ne_true.elim
            hyield hchoices
          subst heq
          have hyield := List.append_cancel_left hyield
          have hchoices := List.append_cancel_left hchoices
          have heq := ihw between' false _ _ _ _ _ hbetween hbetween' hdown.iterRight
            (next_mem_insideRight ha last hlast hu) (next_mem_insideRight ha last' hlast' hv)
            Bool.false_ne_true.elim hyield hchoices
          subst heq
          rw [ihl last' false _ u v cs ds hlast hlast' hdown.iterLeft
            (mem_insideLeft.2 (Or.inl hu)) (mem_insideLeft.2 (Or.inl hv)) Bool.false_ne_true.elim
            (List.append_cancel_left hyield) (List.append_cancel_left hchoices)]

end ParseTree

namespace Prediction

open ParseTree

variable {g : Grammar}

/-- **What a table without conflicts decides.**  Two parse trees of the start symbol that read the same
word, in which every iteration begins in its left part, and which agree on the choices inside of rules,
are the same.  If all rules are straight, every word has at most one parse tree. -/
theorem parseTree_unique_of_isLL1 (hsize : g.nonterminals.size ≤ 999)
    (hll : (build g).isLL1 = true) {start : Nat} (hstart : g.start? = some start)
    {p q : ParseTree g.tableExpandedRule? (.reference start false)} (h : p.yield = q.yield) :
    (p.LedByLeft → q.LedByLeft → p.innerChoices true = q.innerChoices true → p = q) ∧
      ((∀ nt rule, g.expandedRule? nt = some rule → rule.isStraight true = true) → p = q) := by
  have ha := Analysis.saturated_compute hsize
  obtain ⟨rfl, hpos⟩ := Grammar.start?_eq_some_iff.1 hstart
  have hunique : p.LedByLeft → q.LedByLeft → p.innerChoices true = q.innerChoices true → p = q := by
    intro hp hq hchoices
    apply p.eq_of_yield_of_innerChoices ha hll q true ((Analysis.compute g).follow 0) [] [] [] [] hp hq
    · exact Analysis.delivers_reference _ g 0 false
    · exact ha.finish hpos
    · exact ha.finish hpos
    · intro _
      cases p
      cases q
      rfl
    · rw [h]
    · rw [hchoices]
  refine ⟨hunique, fun hstraight => ?_⟩
  have hrules : ∀ nt rule, g.tableExpandedRule? nt = some rule → rule.isStraight true = true :=
    fun nt rule hrule => hstraight nt rule (Grammar.tableExpandedRule?_eq_some_iff.1 hrule).2
  obtain ⟨hchoices, hp⟩ := p.innerChoices_of_straight hrules true rfl
  obtain ⟨hchoices', hq⟩ := q.innerChoices_of_straight hrules true rfl
  exact hunique hp hq (hchoices.trans hchoices'.symm)

/-- Letters `a` and as many letters `b`, around an optional letter `c`. -/
def nestedPairs : Grammar where
  terminals := ⟨#["", "a", "b", "c"], by decide⟩
  nonterminals := ⟨#["pairs", "middle"], by decide⟩
  semantics := SymbolTable.empty
  macros := SymbolTable.empty
  rules := #[some (.alt (.seq (.terminal 1) (.seq (.reference 0 false) (.terminal 2)))
      (.reference 1 false)),
    some (.alt (.terminal 3) (.terminal 0))]
  emptyName := by decide

/-- The items `b` and `-a` are read in one way with the same inner choices, and every word of nested
pairs is read in one way. -/
theorem parseTree_unique_signedItems_and_nestedPairs :
    (∀ q : ParseTree signedItems.tableExpandedRule? (.reference 0 false),
      signedItemsTree.yield = q.yield → q.LedByLeft →
        signedItemsTree.innerChoices true = q.innerChoices true → signedItemsTree = q) ∧
      nestedPairs.accepts 0 [1, 1, 3, 2, 2] = true ∧
      ∀ p q : ParseTree nestedPairs.tableExpandedRule? (.reference 0 false),
        p.yield = q.yield → p = q := by
  have hled : signedItemsTree.LedByLeft := by
    refine ⟨fun h => ?_, trivial, trivial, ⟨trivial, trivial⟩⟩
    cases h
  have hstraight : ∀ nt rule, nestedPairs.expandedRule? nt = some rule →
      rule.isStraight true = true := by
    intro nt rule h
    match nt with
    | 0 => cases h; rfl
    | 1 => cases h; rfl
    | n + 2 => cases h
  refine ⟨fun q h hq hchoices => ?_, by decide +kernel, fun p q h => ?_⟩
  · exact (parseTree_unique_of_isLL1 (by decide) (by decide +kernel) rfl h).1 hled hq hchoices
  · exact (parseTree_unique_of_isLL1 (by decide) (by decide +kernel) rfl h).2 hstraight

/-! ### What is left open -/

/-- A single rule over the letters `a` and `b`. -/
def overLetters (rule : Rule) : Grammar where
  terminals := ⟨#["", "a", "b"], by decide⟩
  nonterminals := ⟨#["start"], by decide⟩
  semantics := SymbolTable.empty
  macros := SymbolTable.empty
  rules := #[some rule]
  emptyName := by decide

def overLettersTree (rule : Rule) (h : (overLetters rule).tableExpandedRule? 0 = some rule)
    (body : ParseTree (overLetters rule).tableExpandedRule? rule) :
    ParseTree (overLetters rule).tableExpandedRule? (.reference 0 false) :=
  .reference 0 false h body

/-- An `a` by either side of an alternative, then a `b`. -/
def twoSides : Rule := .seq (.alt (.terminal 1) (.terminal 1)) (.terminal 2)

theorem two_parseTrees_of_twoSides :
    (build (overLetters twoSides)).isLL1 = true ∧
      ∃ p q : ParseTree (overLetters twoSides).tableExpandedRule? (.reference 0 false),
        p.yield = q.yield ∧ p ≠ q := by
  have hrule : (overLetters twoSides).tableExpandedRule? 0 = some twoSides := by decide +kernel
  have ha : 1 ≠ 0 := by decide
  have hb : 2 ≠ 0 := by decide
  refine ⟨by decide +kernel,
    overLettersTree twoSides hrule (.seq (.altLeft _ (.terminal 1 ha)) (.terminal 2 hb)),
    overLettersTree twoSides hrule (.seq (.altRight _ (.terminal 1 ha)) (.terminal 2 hb)), rfl, ?_⟩
  intro heq
  have hchoices : [false] = [true] := congrArg (innerChoices true) heq
  cases hchoices

/-- One or more letters `a`, twice. -/
def twoRuns : Rule := .seq (.iter (.terminal 1) (.terminal 0)) (.iter (.terminal 1) (.terminal 0))

theorem two_parseTrees_of_twoRuns :
    (build (overLetters twoRuns)).isLL1 = true ∧
      ∃ p q : ParseTree (overLetters twoRuns).tableExpandedRule? (.reference 0 false),
        p.yield = q.yield ∧ p.LedByLeft ∧ q.LedByLeft ∧ p ≠ q := by
  have hrule : (overLetters twoRuns).tableExpandedRule? 0 = some twoRuns := by decide +kernel
  have ha : 1 ≠ 0 := by decide
  refine ⟨by decide +kernel,
    overLettersTree twoRuns hrule (.seq (.iterOnce _ (.terminal 1 ha))
      (.iterMore (.iterOnce _ (.terminal 1 ha)) .empty (.terminal 1 ha))),
    overLettersTree twoRuns hrule (.seq
      (.iterMore (.iterOnce _ (.terminal 1 ha)) .empty (.terminal 1 ha))
      (.iterOnce _ (.terminal 1 ha))), rfl, ?_, ?_, ?_⟩
  · exact ⟨trivial, ⟨fun _ => rfl, trivial, trivial, trivial⟩⟩
  · exact ⟨⟨fun _ => rfl, trivial, trivial, trivial⟩, trivial⟩
  · intro heq
    have hchoices : [false, true, false] = [true, false, false] := congrArg (innerChoices true) heq
    cases hchoices

/-- Any number of letters `a` and a `b`, where the letters `a` are right parts of an iteration; or one
`a` and a `b`, after an iteration that reads nothing. -/
def twoStarts : Rule :=
  .alt (.seq (.iter (.terminal 0) (.terminal 1)) (.terminal 2))
    (.seq (.iter (.terminal 0) (.terminal 0)) (.seq (.terminal 1) (.terminal 2)))

theorem two_parseTrees_of_twoStarts :
    (build (overLetters twoStarts)).isLL1 = true ∧
      ∃ p q : ParseTree (overLetters twoStarts).tableExpandedRule? (.reference 0 false),
        p.yield = q.yield ∧ p.innerChoices true = q.innerChoices true ∧ p ≠ q := by
  have hrule : (overLetters twoStarts).tableExpandedRule? 0 = some twoStarts := by decide +kernel
  have ha : 1 ≠ 0 := by decide
  have hb : 2 ≠ 0 := by decide
  refine ⟨by decide +kernel,
    overLettersTree twoStarts hrule (.altLeft _ (.seq
      (.iterMore (.iterOnce _ .empty) (.terminal 1 ha) .empty) (.terminal 2 hb))),
    overLettersTree twoStarts hrule (.altRight _ (.seq
      (.iterMore (.iterOnce _ .empty) .empty .empty)
      (.seq (.terminal 1 ha) (.terminal 2 hb)))), rfl, rfl, ?_⟩
  intro heq
  have hexpansions : [(0, 0, 0)] = [(0, 1, 0)] := congrArg (expansions 0) heq
  cases hexpansions

/-- **A table without conflicts does not decide everything.**  A word may have two parse trees that
differ in a side taken inside of a rule, or in the rounds of iterations that begin in their left parts,
or, if an iteration begins in its right part, in the topmost alternative alone. -/
theorem isLL1_leaves_open :
    (¬ ∀ g : Grammar, g.WellFormed → g.nonterminals.size ≤ 999 → (build g).isLL1 = true →
      ∀ start, g.start? = some start →
        ∀ p q : ParseTree g.tableExpandedRule? (.reference start false), p.yield = q.yield → p = q) ∧
    ((build (overLetters twoRuns)).isLL1 = true ∧
      ∃ p q : ParseTree (overLetters twoRuns).tableExpandedRule? (.reference 0 false),
        p.yield = q.yield ∧ p.LedByLeft ∧ q.LedByLeft ∧ p ≠ q) ∧
    ((build (overLetters twoStarts)).isLL1 = true ∧
      ∃ p q : ParseTree (overLetters twoStarts).tableExpandedRule? (.reference 0 false),
        p.yield = q.yield ∧ p.innerChoices true = q.innerChoices true ∧ p ≠ q) := by
  refine ⟨fun hunique => ?_, two_parseTrees_of_twoRuns, two_parseTrees_of_twoStarts⟩
  obtain ⟨hll, p, q, hyield, hne⟩ := two_parseTrees_of_twoSides
  exact hne (hunique (overLetters twoSides) (by decide +kernel) (by decide) hll 0 rfl p q hyield)

end Prediction

end RuleGrammar
