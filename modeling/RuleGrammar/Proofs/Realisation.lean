import RuleGrammar.Proofs.Chains
import RuleGrammar.Proofs.LeastSolution
import RuleGrammar.Proofs.Prediction

/-!
# Predictions are realised

On grammars without iterations and opened references, whose nonterminals all derive words and are all
reached from the start symbol, the analyses hold nothing that does not come up in some parse tree: each
entry got into its set for a reason, and the parts of a rule that the reason does not look at can be
completed with some word.

* `Framed s t u v`: parse trees of `t` can be completed to parse trees of `s`, with the words `u` and
  `v` around them.
* `Grammar.Reduced`: the grammars in question.
* `Reduced.readsNothing_of_compute`, `Reduced.readsFirst_of_compute`, `Reduced.standsBefore_of_compute`:
  the three analyses.
* `Prediction.Realised`: an alternative is taken in some parse tree with a lookahead at its place.
* `Prediction.predictions_and_conflicts_realised`: every prediction and every conflict is realised.
-/

namespace RuleGrammar

open FixedPoint

/-! ### Frames -/

/-- Every parse tree of `t` can be completed to one of `s` that takes all of its alternatives, with the
words `u` before and `v` after it. -/
def Framed (rules : Nat → Option Rule) (s t : Rule) (u v : Word) : Prop :=
  ∀ q : ParseTree rules t, ∃ p : ParseTree rules s,
    p.yield = u ++ q.yield ++ v ∧ ∀ e ∈ q.expansions u.length, e ∈ p.expansions 0

namespace Framed

variable {rules : Nat → Option Rule} {s l r : Rule} {u v : Word}

theorem refl (s : Rule) : Framed rules s s [] [] :=
  fun q => ⟨q, by rw [List.nil_append, List.append_nil], fun _ he => he⟩

theorem ofReference {nt : Nat} {opened : Bool} {rule : Rule}
    (h : Framed rules s (.reference nt opened) u v) (hrule : rules nt = some rule) :
    Framed rules s rule u v := by
  intro q
  obtain ⟨p, hyield, hexp⟩ := h (.reference nt opened hrule q)
  exact ⟨p, hyield, fun e he => hexp e (List.mem_cons_of_mem _ he)⟩

theorem ofSeqLeft (h : Framed rules s (.seq l r) u v) (right : ParseTree rules r) :
    Framed rules s l u (right.yield ++ v) := by
  intro q
  obtain ⟨p, hyield, hexp⟩ := h (.seq q right)
  refine ⟨p, ?_, fun e he => hexp e (List.mem_append_left _ he)⟩
  rw [hyield]
  simp only [ParseTree.yield, List.append_assoc]

theorem ofSeqRight (h : Framed rules s (.seq l r) u v) (left : ParseTree rules l) :
    Framed rules s r (u ++ left.yield) v := by
  intro q
  obtain ⟨p, hyield, hexp⟩ := h (.seq left q)
  refine ⟨p, ?_, fun e he => hexp e (List.mem_append_right _ ?_)⟩
  · rw [hyield]
    simp only [ParseTree.yield, List.append_assoc]
  · rw [← List.length_append]
    exact he

theorem ofAltLeft (h : Framed rules s (.alt l r) u v) : Framed rules s l u v :=
  fun q => h (.altLeft r q)

theorem ofAltRight (h : Framed rules s (.alt l r) u v) : Framed rules s r u v :=
  fun q => h (.altRight l q)

end Framed

/-! ### Reduced grammars -/

/-- Whether a tree has neither iterations nor opened references. -/
def Tree.isPlain {α : Type} : Tree α → Bool
  | .reference _ opened => !opened
  | .seq l r | .alt l r => l.isPlain && r.isPlain
  | .iter _ _ => false
  | _ => true

theorem Tree.closed_of_isPlain {t : Rule} (h : t.isPlain = true) : t.Closed := by
  induction t with
  | reference nt opened =>
      cases opened with
      | false => simp [Closed, mentions]
      | true => cases h
  | seq l r ihl ihr | alt l r ihl ihr =>
      obtain ⟨hl, hr⟩ := Bool.and_eq_true_iff.1 h
      exact Closed.pair rfl (ihl hl) (ihr hr)
  | iter l r => cases h
  | _ => simp [Closed, mentions]

namespace Grammar

variable {g : Grammar}

theorem expand_of_isPlain {t : Rule} (h : t.isPlain = true) : g.expand t = t :=
  expand_of_closed (Tree.closed_of_isPlain h)

/-- A nonterminal is reached from the start symbol by way of references in rules. -/
inductive Reached (g : Grammar) : Nat → Prop where
  | start {nt : Nat} (h : g.start? = some nt) : Reached g nt
  | reference {nt m : Nat} {rule : Rule} (h : Reached g nt) (hrule : g.rule? nt = some rule)
      (hm : m ∈ rule.references) : Reached g m

/-- A well-formed grammar without iterations and opened references, in which every nonterminal derives
a word and is reached from the start symbol. -/
structure Reduced (g : Grammar) : Prop extends g.WellFormed where
  plain : ∀ {nt : Nat} {rule : Rule}, g.rule? nt = some rule → rule.isPlain = true
  productive : ∀ nt < g.nonterminals.size, ∃ w, g.Language nt w
  reached : ∀ nt < g.nonterminals.size, g.Reached nt

namespace Reduced

/-- The expanded rules of a reduced grammar are its rules. -/
theorem tableExpandedRule?_eq_some_iff (hg : g.Reduced) {nt : Nat} {rule : Rule} :
    g.tableExpandedRule? nt = some rule ↔ g.rule? nt = some rule := by
  rw [Grammar.tableExpandedRule?_eq_some_iff, expandedRule?]
  constructor
  · intro h
    obtain ⟨plain, hplain, rfl⟩ := Option.map_eq_some_iff.1 h.2
    rw [expand_of_isPlain (hg.plain hplain)]
    exact hplain
  · intro h
    rw [h, Option.map_some, expand_of_isPlain (hg.plain h)]
    exact ⟨hg.owned h, rfl⟩

/-- Every covered tree has a parse tree. -/
theorem nonempty_parseTree (hg : g.Reduced) {t : Rule} (ht : g.Covers t) :
    Nonempty (ParseTree g.tableExpandedRule? t) := by
  induction t with
  | terminal a =>
      by_cases ha : a = 0
      · rw [ha]
        exact ⟨.empty⟩
      · exact ⟨.terminal a ha⟩
  | semantic a => exact ⟨.semantic a⟩
  | reference nt opened =>
      obtain ⟨w, hw⟩ := hg.productive nt ht
      obtain ⟨p, _⟩ := hw.exists_parseTree
      cases p with
      | reference _ _ hrule body => exact ⟨.reference nt opened hrule body⟩
  | seq l r ihl ihr =>
      obtain ⟨left⟩ := ihl ht.1
      obtain ⟨right⟩ := ihr ht.2
      exact ⟨.seq left right⟩
  | alt l r ihl ihr =>
      obtain ⟨left⟩ := ihl ht.1
      exact ⟨.altLeft r left⟩
  | iter l r ihl ihr =>
      obtain ⟨first⟩ := ihl ht.1
      exact ⟨.iterOnce r first⟩

/-! ### The first two analyses -/

/-- A tree has a parse tree that reads the empty word. -/
def ReadsNothing (g : Grammar) (t : Rule) : Prop :=
  ∃ p : ParseTree g.tableExpandedRule? t, p.yield = []

/-- A tree has a parse tree that reads a word with a given lookahead at its beginning. -/
def ReadsFirst (g : Grammar) (t : Rule) (x : Nat) : Prop :=
  ∃ p : ParseTree g.tableExpandedRule? t, p.yield ≠ [] ∧ (Word.next p.yield).slot = x

variable {t : Rule} {flags : Flags} {sets : LookaheadSets} {x : Nat}

/-- A tree that counts as nullable reads the empty word, if the flagged nonterminals do. -/
theorem readsNothing_of_nullable
    (hflags : ∀ m, flags.getD m false = true → ReadsNothing g (.reference m false))
    (hplain : t.isPlain = true) (h : t.nullable flags = true) : ReadsNothing g t := by
  induction t with
  | terminal a =>
      rw [eq_of_beq h]
      exact ⟨.empty, rfl⟩
  | semantic a => exact ⟨.semantic a, rfl⟩
  | reference nt opened =>
      cases opened with
      | false => exact hflags nt h
      | true => cases hplain
  | seq l r ihl ihr =>
      obtain ⟨hl, hr⟩ := Bool.and_eq_true_iff.1 hplain
      obtain ⟨hnl, hnr⟩ := Bool.and_eq_true_iff.1 h
      obtain ⟨left, hleft⟩ := ihl hl hnl
      obtain ⟨right, hright⟩ := ihr hr hnr
      exact ⟨.seq left right, by rw [ParseTree.yield, hleft, hright, List.nil_append]⟩
  | alt l r ihl ihr =>
      obtain ⟨hl, hr⟩ := Bool.and_eq_true_iff.1 hplain
      rcases Bool.or_eq_true_iff.1 h with hn | hn
      · obtain ⟨left, hleft⟩ := ihl hl hn
        exact ⟨.altLeft r left, hleft⟩
      · obtain ⟨right, hright⟩ := ihr hr hn
        exact ⟨.altRight l right, hright⟩
  | iter l r => cases hplain

/-- A tree that counts as beginning with a lookahead reads a word that does, if this holds of
nonterminals; what comes after that beginning is completed with some word. -/
theorem readsFirst_of_mem_first (hg : g.Reduced)
    (hflags : ∀ m, flags.getD m false = true → ReadsNothing g (.reference m false))
    (hsets : ∀ m x, x ∈ sets.getD m .empty → ReadsFirst g (.reference m false) x)
    (hplain : t.isPlain = true) (ht : g.Covers t) (h : x ∈ t.first flags sets) :
    ReadsFirst g t x := by
  induction t with
  | terminal a =>
      rw [Tree.first] at h
      split at h
      · exact absurd h (NumberSet.not_mem_empty x)
      · next ha =>
          rw [NumberSet.mem_singleton.1 h]
          exact ⟨.terminal a ha, List.cons_ne_nil a [], rfl⟩
  | semantic a => exact absurd h (NumberSet.not_mem_empty x)
  | reference nt opened =>
      cases opened with
      | false => exact hsets nt x h
      | true => cases hplain
  | seq l r ihl ihr =>
      obtain ⟨hl, hr⟩ := Bool.and_eq_true_iff.1 hplain
      rcases Tree.mem_first_seq.1 h with hx | ⟨hnull, hx⟩
      · obtain ⟨left, hne, hnext⟩ := ihl hl ht.1 hx
        obtain ⟨right⟩ := hg.nonempty_parseTree ht.2
        refine ⟨.seq left right, List.append_ne_nil_of_left_ne_nil hne _, ?_⟩
        rw [ParseTree.yield, Word.next_append hne]
        exact hnext
      · obtain ⟨left, hleft⟩ := readsNothing_of_nullable hflags hl hnull
        obtain ⟨right, hne, hnext⟩ := ihr hr ht.2 hx
        refine ⟨.seq left right, ?_⟩
        rw [ParseTree.yield, hleft, List.nil_append]
        exact ⟨hne, hnext⟩
  | alt l r ihl ihr =>
      obtain ⟨hl, hr⟩ := Bool.and_eq_true_iff.1 hplain
      rcases NumberSet.mem_union.1 h with hx | hx
      · obtain ⟨left, hleft⟩ := ihl hl ht.1 hx
        exact ⟨.altLeft r left, hleft⟩
      · obtain ⟨right, hright⟩ := ihr hr ht.2 hx
        exact ⟨.altRight l right, hright⟩
  | iter l r => cases hplain

/-- What is known of a rule in the list that the analyses work on. -/
theorem rule_of_mem_expandedRules (hg : g.Reduced) {nt : Nat} {rule : Rule}
    (h : (nt, rule) ∈ Analysis.expandedRules g) :
    g.tableExpandedRule? nt = some rule ∧ rule.isPlain = true ∧ g.Covers rule := by
  have htable := Grammar.tableExpandedRule?_eq_some_iff.2 (Analysis.mem_expandedRules.1 h)
  have hrule := hg.tableExpandedRule?_eq_some_iff.1 htable
  exact ⟨htable, hg.plain hrule, hg.covered hrule⟩

/-- **What counts as nullable reads the empty word.** -/
theorem readsNothing_of_compute (hg : g.Reduced) {nt : Nat}
    (h : (Analysis.compute g).nullable nt = true) : ReadsNothing g (.reference nt false) := by
  refine Analysis.nullable_induction (P := fun nt => ReadsNothing g (.reference nt false)) ?_ h
  intro flags hflags nt rule hmem hnull
  obtain ⟨htable, hplain, _⟩ := hg.rule_of_mem_expandedRules hmem
  obtain ⟨body, hbody⟩ := readsNothing_of_nullable hflags hplain hnull
  exact ⟨.reference nt false htable body, hbody⟩

/-- **What a nonterminal counts as beginning with begins one of its words.** -/
theorem readsFirst_of_compute (hg : g.Reduced) {nt x : Nat}
    (h : x ∈ (Analysis.compute g).first nt) : ReadsFirst g (.reference nt false) x := by
  refine Analysis.first_induction (Q := fun nt x => ReadsFirst g (.reference nt false) x) ?_ h
  intro sets hsets nt rule x hmem hx
  obtain ⟨htable, hplain, hcovers⟩ := hg.rule_of_mem_expandedRules hmem
  obtain ⟨body, hbody⟩ := hg.readsFirst_of_mem_first (fun m hm => hg.readsNothing_of_compute hm)
    hsets hplain hcovers hx
  exact ⟨.reference nt false htable body, hbody⟩

theorem readsNothing_of_isNullable (hg : g.Reduced) (hplain : t.isPlain = true)
    (h : (Analysis.compute g).isNullable t = true) : ReadsNothing g t :=
  readsNothing_of_nullable (fun _ hm => hg.readsNothing_of_compute hm) hplain h

theorem readsFirst_of_mem_firstOf (hg : g.Reduced) (hplain : t.isPlain = true) (ht : g.Covers t)
    (h : x ∈ (Analysis.compute g).firstOf t) : ReadsFirst g t x :=
  hg.readsFirst_of_mem_first (fun _ hm => hg.readsNothing_of_compute hm)
    (fun _ _ hx => hg.readsFirst_of_compute hx) hplain ht h

/-! ### The third analysis -/

/-- A tree stands in a parse tree of the start symbol. -/
def Stands (g : Grammar) (t : Rule) : Prop :=
  ∃ u v, Framed g.tableExpandedRule? (.reference 0 false) t u v

/-- A tree stands in a parse tree of the start symbol with a given lookahead after it. -/
def StandsBefore (g : Grammar) (t : Rule) (x : Nat) : Prop :=
  ∃ u v, Framed g.tableExpandedRule? (.reference 0 false) t u v ∧ (Word.next v).slot = x

theorem stands_of_mem_references (hg : g.Reduced) {m : Nat} (hplain : t.isPlain = true)
    (ht : g.Covers t) (h : Stands g t) (hm : m ∈ t.references) : Stands g (.reference m false) := by
  induction t with
  | reference nt opened =>
      cases opened with
      | false =>
          rw [List.mem_singleton.1 hm]
          exact h
      | true => cases hplain
  | seq l r ihl ihr =>
      obtain ⟨hl, hr⟩ := Bool.and_eq_true_iff.1 hplain
      obtain ⟨u, v, hframe⟩ := h
      rw [Tree.references, Tree.mentions, List.map_append, List.mem_append] at hm
      rcases hm with hm | hm
      · obtain ⟨right⟩ := hg.nonempty_parseTree ht.2
        exact ihl hl ht.1 ⟨_, _, hframe.ofSeqLeft right⟩ hm
      · obtain ⟨left⟩ := hg.nonempty_parseTree ht.1
        exact ihr hr ht.2 ⟨_, _, hframe.ofSeqRight left⟩ hm
  | alt l r ihl ihr =>
      obtain ⟨hl, hr⟩ := Bool.and_eq_true_iff.1 hplain
      obtain ⟨u, v, hframe⟩ := h
      rw [Tree.references, Tree.mentions, List.map_append, List.mem_append] at hm
      rcases hm with hm | hm
      · exact ihl hl ht.1 ⟨u, v, hframe.ofAltLeft⟩ hm
      · exact ihr hr ht.2 ⟨u, v, hframe.ofAltRight⟩ hm
  | iter l r => cases hplain
  | _ => cases hm

/-- Every nonterminal that is reached stands in a parse tree of the start symbol. -/
theorem stands_of_reached (hg : g.Reduced) {nt : Nat} (h : g.Reached nt) :
    Stands g (.reference nt false) := by
  induction h with
  | start hstart =>
      obtain ⟨rfl, _⟩ := start?_eq_some_iff.1 hstart
      exact ⟨[], [], Framed.refl _⟩
  | reference _ hrule hm ih =>
      obtain ⟨u, v, hframe⟩ := ih
      have htable := hg.tableExpandedRule?_eq_some_iff.2 hrule
      exact hg.stands_of_mem_references (hg.plain hrule) (hg.covered hrule)
        ⟨u, v, hframe.ofReference htable⟩ hm

/-- What a tree hands down to a reference comes after that reference, if what is in its context comes
after the tree. -/
theorem standsBefore_of_handed (hg : g.Reduced) {m : Nat} : ∀ {context : LookaheadSet},
    t.isPlain = true → g.Covers t → Stands g t → (∀ y, y ∈ context → StandsBefore g t y) →
    Analysis.Handed (Analysis.compute g).nullableRun.value (Analysis.compute g).firstRun.value t
      context m x → StandsBefore g (.reference m false) x := by
  induction t with
  | reference nt opened =>
      intro context hplain _ _ hcontext h
      cases opened with
      | false =>
          rw [h.1]
          exact hcontext x h.2
      | true => cases hplain
  | seq l r ihl ihr =>
      intro context hplain ht hstands hcontext h
      obtain ⟨hl, hr⟩ := Bool.and_eq_true_iff.1 hplain
      obtain ⟨left⟩ := hg.nonempty_parseTree ht.1
      obtain ⟨right⟩ := hg.nonempty_parseTree ht.2
      obtain ⟨u, v, hframe⟩ := hstands
      rcases h with h | h
      · refine ihl hl ht.1 ⟨_, _, hframe.ofSeqLeft right⟩ (fun y hy => ?_) h
        rcases Analysis.mem_beforeRight.1 hy with hy | ⟨hnull, hy⟩
        · -- the right part begins with the lookahead, in whatever place the sequence stands
          obtain ⟨right, hne, hnext⟩ := hg.readsFirst_of_mem_firstOf hr ht.2 hy
          refine ⟨_, _, hframe.ofSeqLeft right, ?_⟩
          rw [Word.next_append hne]
          exact hnext
        · -- the right part reads nothing, so what comes after the sequence comes next
          obtain ⟨u, v, hframe, hnext⟩ := hcontext y hy
          obtain ⟨right, hright⟩ := hg.readsNothing_of_isNullable hr hnull
          refine ⟨_, _, hframe.ofSeqLeft right, ?_⟩
          rw [hright]
          exact hnext
      · refine ihr hr ht.2 ⟨_, _, hframe.ofSeqRight left⟩ (fun y hy => ?_) h
        obtain ⟨u, v, hframe, hnext⟩ := hcontext y hy
        exact ⟨_, _, hframe.ofSeqRight left, hnext⟩
  | alt l r ihl ihr =>
      intro context hplain ht hstands hcontext h
      obtain ⟨hl, hr⟩ := Bool.and_eq_true_iff.1 hplain
      obtain ⟨u, v, hframe⟩ := hstands
      rcases h with h | h
      · refine ihl hl ht.1 ⟨u, v, hframe.ofAltLeft⟩ (fun y hy => ?_) h
        obtain ⟨u, v, hframe, hnext⟩ := hcontext y hy
        exact ⟨u, v, hframe.ofAltLeft, hnext⟩
      · refine ihr hr ht.2 ⟨u, v, hframe.ofAltRight⟩ (fun y hy => ?_) h
        obtain ⟨u, v, hframe, hnext⟩ := hcontext y hy
        exact ⟨u, v, hframe.ofAltRight, hnext⟩
  | iter l r =>
      intro context hplain
      cases hplain
  | _ =>
      intro context _ _ _ _ h
      cases h

/-- **What counts as following a nonterminal comes after it in a parse tree of the start symbol.** -/
theorem standsBefore_of_compute (hg : g.Reduced) {nt x : Nat}
    (h : x ∈ (Analysis.compute g).follow nt) : StandsBefore g (.reference nt false) x := by
  refine Analysis.follow_induction (Q := fun nt x => StandsBefore g (.reference nt false) x) ?_ ?_ h
  · intro _
    exact ⟨[], [], Framed.refl _, rfl⟩
  · intro nt rule context hmem hcontext m x _ hx
    obtain ⟨htable, hplain, hcovers⟩ := hg.rule_of_mem_expandedRules hmem
    have hnt : nt < g.nonterminals.size := (Analysis.mem_expandedRules.1 hmem).1
    obtain ⟨u, v, hframe⟩ := hg.stands_of_reached (hg.reached nt hnt)
    refine hg.standsBefore_of_handed hplain hcovers ⟨u, v, hframe.ofReference htable⟩ ?_ hx
    intro y hy
    obtain ⟨u, v, hframe, hnext⟩ := hcontext y hy
    exact ⟨u, v, hframe.ofReference htable, hnext⟩

end Reduced

end Grammar

/-! ### Predictions -/

theorem Tree.isPlain_of_mem_alternatives {α : Type} {t alternative : Tree α}
    (h : t.isPlain = true) (hmem : alternative ∈ t.alternatives) : alternative.isPlain = true := by
  induction t with
  | alt l r ihl ihr =>
      obtain ⟨hl, hr⟩ := Bool.and_eq_true_iff.1 h
      rcases List.mem_append.1 hmem with hmem | hmem
      · exact ihl hl hmem
      · exact ihr hr hmem
  | _ =>
      rw [List.mem_singleton.1 hmem]
      exact h

/-- A parse tree of an alternative is one of the whole tree that takes this alternative. -/
theorem ParseTree.exists_of_alternative {rules : Nat → Option Rule} {t alternative : Rule} :
    ∀ {k : Nat}, t.alternatives[k]? = some alternative → ∀ q : ParseTree rules alternative,
      ∃ p : ParseTree rules t, p.choice = k ∧ p.yield = q.yield := by
  have hsingle : ∀ {s : Rule} {k : Nat}, [s][k]? = some alternative →
      k = 0 ∧ s = alternative := by
    intro s k h
    cases k with
    | zero => exact ⟨rfl, Option.some.inj h⟩
    | succ k => cases h
  induction t with
  | alt l r ihl ihr =>
      intro k h q
      by_cases hk : k < l.alternatives.length
      · rw [Tree.alternatives, List.getElem?_append_left hk] at h
        obtain ⟨p, hchoice, hyield⟩ := ihl h q
        exact ⟨.altLeft r p, hchoice, hyield⟩
      · rw [Tree.alternatives, List.getElem?_append_right (by omega)] at h
        obtain ⟨p, hchoice, hyield⟩ := ihr h q
        refine ⟨.altRight l p, ?_, hyield⟩
        rw [choice, hchoice]
        omega
  | _ =>
      intro k h q
      obtain ⟨rfl, rfl⟩ := hsingle h
      refine ⟨q, ?_, rfl⟩
      cases q <;> rfl

namespace Prediction

open Grammar

variable {g : Grammar}

/-- In some parse tree of the start symbol, a nonterminal takes an alternative at a position with a
given lookahead. -/
def Realised (g : Grammar) (nt k : Nat) (lookahead : Lookahead) : Prop :=
  ∃ start, g.start? = some start ∧
    ∃ (p : ParseTree g.tableExpandedRule? (.reference start false)) (i : Nat),
      (nt, k, i) ∈ p.expansions 0 ∧ i ≤ p.yield.length ∧ Word.lookaheadAt p.yield i = lookahead

/-- A parse tree of an alternative, and a place for the nonterminal that owns it, make up a parse tree
of the start symbol. -/
theorem realised_of_framed (hg : g.Reduced) {nt k : Nat} {rule alternative : Rule}
    (hrule : g.rule? nt = some rule) (hget : rule.alternatives[k]? = some alternative)
    (q : ParseTree g.tableExpandedRule? alternative) {u v : Word}
    (hframe : Framed g.tableExpandedRule? (.reference 0 false) (.reference nt false) u v) :
    Realised g nt k (Word.next (q.yield ++ v)) := by
  obtain ⟨body, hchoice, hbody⟩ := ParseTree.exists_of_alternative hget q
  have htable := hg.tableExpandedRule?_eq_some_iff.2 hrule
  obtain ⟨p, hyield, hexp⟩ := hframe (.reference nt false htable body)
  have hword : p.yield = u ++ (q.yield ++ v) := by
    rw [hyield, ParseTree.yield, hbody, List.append_assoc]
  have hpos : 0 < g.nonterminals.size := Nat.zero_lt_of_lt (hg.owned hrule)
  refine ⟨0, start?_eq_some_iff.2 ⟨rfl, hpos⟩, p, u.length, ?_, ?_, ?_⟩
  · apply hexp
    rw [← hchoice]
    exact List.mem_cons_self ..
  · rw [hword, List.length_append]
    omega
  · rw [hword, Word.lookaheadAt_length]

theorem exists_rule_of_alternative (hg : g.Reduced) {nt k : Nat} {alternative : Rule}
    (h : (alternativesOf g nt)[k]? = some alternative) :
    ∃ rule, g.rule? nt = some rule ∧ rule.alternatives[k]? = some alternative := by
  unfold alternativesOf at h
  split at h
  · next rule hexpanded =>
      obtain ⟨plain, hplain, rfl⟩ := Option.map_eq_some_iff.1 hexpanded
      rw [expand_of_isPlain (hg.plain hplain)] at h
      exact ⟨plain, hplain, h⟩
  · cases h

/-- What an alternative begins with is completed to a parse tree of the start symbol; what follows the
nonterminal comes after an empty word of the alternative. -/
theorem Claimed.realised (hg : g.Reduced) {nt k : Nat} {lookahead : Lookahead}
    (h : Claimed g (Analysis.compute g) nt k lookahead) : Realised g nt k lookahead := by
  obtain ⟨alternative, hget, hmem⟩ := h
  obtain ⟨rule, hrule, hget⟩ := exists_rule_of_alternative hg hget
  have halternative := List.mem_of_getElem? hget
  have hplain := Tree.isPlain_of_mem_alternatives (hg.plain hrule) halternative
  rw [← Lookahead.ofSlot_slot lookahead]
  rcases mem_predictionSet.1 hmem with hfirst | ⟨hnull, hfollow⟩
  · have hcovers := (hg.covered hrule).of_mem_alternatives halternative
    obtain ⟨q, hne, hnext⟩ := hg.readsFirst_of_mem_firstOf hplain hcovers hfirst
    obtain ⟨u, v, hframe⟩ := hg.stands_of_reached (hg.reached nt (hg.owned hrule))
    have hrealised := realised_of_framed hg hrule hget q hframe
    rw [Word.next_append hne] at hrealised
    rw [← hnext, Lookahead.ofSlot_slot]
    exact hrealised
  · obtain ⟨q, hq⟩ := hg.readsNothing_of_isNullable hplain hnull
    obtain ⟨u, v, hframe, hnext⟩ := hg.standsBefore_of_compute hfollow
    have hrealised := realised_of_framed hg hrule hget q hframe
    rw [hq, List.nil_append] at hrealised
    rw [← hnext, Lookahead.ofSlot_slot]
    exact hrealised

/-- **Predictions are never spurious.**  In a reduced grammar, every lookahead that an alternative claims
comes up in a parse tree that takes this alternative; so the two sides of every conflict come up. -/
theorem predictions_and_conflicts_realised (hg : g.Reduced) :
    (∀ nt k lookahead, Claimed g (Analysis.compute g) nt k lookahead → Realised g nt k lookahead) ∧
      ∀ c ∈ (build g).conflicts, c.earlier ≠ c.later ∧
        Realised g c.nonterminal c.earlier c.lookahead ∧
        Realised g c.nonterminal c.later c.lookahead := by
  refine ⟨fun _ _ _ h => h.realised hg, fun c hc => ?_⟩
  obtain ⟨hne, hearlier, hlater⟩ := claimed_of_mem_conflicts hc
  exact ⟨hne, hearlier.realised hg, hlater.realised hg⟩

theorem distinct_optionalBefore : #["", "a"].toList.Nodup := by decide

/-- An optional letter `a` before a letter `a`. -/
def optionalBefore : Grammar where
  terminals := ⟨#["", "a"], distinct_optionalBefore⟩
  nonterminals := ⟨#["pair", "optional"], by decide⟩
  semantics := SymbolTable.empty
  macros := SymbolTable.empty
  rules := #[some (.seq (.reference 1 false) (.terminal 1)), some (.alt (.terminal 1) (.terminal 0))]
  emptyName := by decide

theorem reduced_optionalBefore : optionalBefore.Reduced where
  toWellFormed := by decide +kernel
  plain {nt rule} h := by
    match nt with
    | 0 => cases h; rfl
    | 1 => cases h; rfl
    | n + 2 => cases h
  productive nt hnt := by
    have hstart : optionalBefore.Language 0 [1] := (accepts_iff ..).1 (by decide +kernel)
    have hoptional : optionalBefore.Language 1 [] := (accepts_iff ..).1 (by decide +kernel)
    match nt, hnt with
    | 0, _ => exact ⟨[1], hstart⟩
    | 1, _ => exact ⟨[], hoptional⟩
  reached nt hnt := by
    have hstart : optionalBefore.Reached 0 := .start rfl
    match nt, hnt with
    | 0, _ => exact hstart
    | 1, _ => exact .reference hstart rfl (by decide)

/-- The optional letter is there or is left out, and the next letter is the same in both cases. -/
theorem conflict_realised_optionalBefore :
    (build optionalBefore).conflicts = [⟨1, .terminal 1, 0, 1⟩] ∧
      Realised optionalBefore 1 0 (.terminal 1) ∧ Realised optionalBefore 1 1 (.terminal 1) := by
  have hconflicts : (build optionalBefore).conflicts = [⟨1, .terminal 1, 0, 1⟩] := by decide +kernel
  have hmem : ⟨1, .terminal 1, 0, 1⟩ ∈ (build optionalBefore).conflicts := by
    rw [hconflicts]
    exact List.mem_singleton.2 rfl
  exact ⟨hconflicts, ((predictions_and_conflicts_realised reduced_optionalBefore).2 _ hmem).2⟩

end Prediction

end RuleGrammar
