import RuleGrammar.Proofs.Rereading
import RuleGrammar.Proofs.Revision.Amendment
import RuleGrammar.Proofs.Revision.Separation

/-!
# Factoring comes to an end

Factoring can be seen as a worklist: the nonterminal on top is taken off, its rule is passed over until
a pass makes nothing, and the nonterminals that were made go on top.  The list becomes empty, because the
rule of a nonterminal that was made is smaller than the rule it came from.  At the end the rules of all
nonterminals that were ever on the list are separated, and the others are as they were; so the end of a
factoring of all rules is a grammar that another factoring leaves alone.

* `Worklist`, `Worklist.Turn`: the list and one turn of it; `orderly_of_turns`: what all turns keep.
* `Factored`: what holds when the list has come back to where some nonterminals were put on it;
  `Factored.andThen`, `factored_factorWithin`, `factored_factorAll`.
* `factoring_ends_separated`: the end, the number of passes, the count, the rules, and a second run.
-/

namespace RuleGrammar.Factoring

open Grammar Relation

variable {g : Grammar} {nt : Nat}

/-! ### The worklist -/

/-- A grammar with nonterminals whose rules have yet to be passed over. -/
structure Worklist where
  grammar : Grammar
  -- the nonterminals, the next one first
  pending : List Nat
  made : Nat

/-- One turn of the worklist, if there is a next nonterminal: passes over its rule, after which the
nonterminals that they made come next, the last one first. -/
def Worklist.turn (s : Worklist) : Option Worklist :=
  match s.pending with
  | [] => none
  | nt :: rest =>
      let r := passes nt maxPasses s.grammar
      some ⟨r.grammar, r.result.reverse ++ rest, s.made + r.result.length⟩

def Worklist.Turn (s s' : Worklist) : Prop := s.turn = some s'

theorem Worklist.orderly_of_turn {s s' : Worklist} (h : s.Turn s') (hs : s.grammar.Orderly) :
    s'.grammar.Orderly := by
  unfold Turn turn at h
  split at h
  · cases h
  · cases h
    exact (keeps_passes _ maxPasses hs).1

theorem Worklist.orderly_of_turns {s s' : Worklist} (h : ReflTransGen Turn s s')
    (hs : s.grammar.Orderly) : s'.grammar.Orderly := by
  induction h with
  | refl => exact hs
  | tail _ hturn ih => exact orderly_of_turn hturn ih

/-- In an orderly grammar, a turn is a single pass. -/
theorem Worklist.turn_pass (hg : g.Orderly) (nt : Nat) (rest : List Nat) (made : Nat) :
    Turn ⟨g, nt :: rest, made⟩
      ⟨(pass g nt).grammar, (pass g nt).result.reverse ++ rest, made + (pass g nt).result.length⟩ := by
  unfold Turn turn
  rw [← passes_eq_pass hg nt (show 2 ≤ maxPasses by decide)]

/-! ### What has been factored -/

/-- What holds when some nonterminals have been taken off the list, with all that came of them. -/
structure Factored (g : Grammar) (nts : List Nat) (r : Revised (List Nat)) : Prop where
  orderly : r.grammar.Orderly
  amended : g.Amended (· ∈ nts) r.grammar
  fresh : r.result = List.range' g.nonterminals.size r.result.length
  size : r.grammar.nonterminals.size = g.nonterminals.size + r.result.length
  separated : ∀ m, m ∈ nts ∨ g.nonterminals.size ≤ m → Separated r.grammar m
  turns : ∀ rest made, ReflTransGen Worklist.Turn ⟨g, nts ++ rest, made⟩
    ⟨r.grammar, rest, made + r.result.length⟩

theorem separated_of_le (hg : g.WellFormed) (hle : g.nonterminals.size ≤ nt) : Separated g nt := by
  intro rule hrule
  have hlt := hg.owned hrule
  omega

theorem factored_nil (hg : g.Orderly) : Factored g [] ⟨g, [], []⟩ where
  orderly := hg
  amended := Amended.refl g _
  fresh := rfl
  size := rfl
  separated m hm := by
    rcases hm with hm | hm
    · cases hm
    · exact separated_of_le hg.toWellFormed hm
  turns _ _ := ReflTransGen.refl

/-- Numbers that go on where others end. -/
theorem range'_of_append {xs ys : List Nat} {n k : Nat} (hxs : xs = List.range' n xs.length)
    (hk : k = n + xs.length) (hys : ys = List.range' k ys.length) :
    xs ++ ys = List.range' n (xs ++ ys).length := by
  rw [List.length_append, ← List.range'_append_1, ← hxs, ← hk, ← hys]

/-- One more nonterminal. -/
theorem Factored.andThen {done : List Nat} {r s : Revised (List Nat)} (h : Factored g done r)
    (h' : Factored r.grammar [nt] s) :
    Factored g (done ++ [nt]) ⟨s.grammar, r.result ++ s.result, r.journal ++ s.journal⟩ where
  orderly := h'.orderly
  amended := (h.amended.mono fun m _ hm => List.mem_append_left _ hm).trans h'.amended
    fun m _ hm => List.mem_append_right _ hm
  fresh := range'_of_append h.fresh h.size h'.fresh
  size := by rw [h'.size, h.size, List.length_append, Nat.add_assoc]
  separated m hm := by
    by_cases hnow : m ∈ [nt] ∨ r.grammar.nonterminals.size ≤ m
    · exact h'.separated m hnow
    · obtain ⟨hne, hlt⟩ := not_or.1 hnow
      have hbefore : Separated r.grammar m := by
        refine h.separated m (hm.imp_left fun hmem => ?_)
        exact (List.mem_append.1 hmem).resolve_right hne
      exact hbefore.of_grows h.orderly.toWellFormed h'.amended.grows
        (h'.amended.kept m (by omega) hne)
  turns rest made := by
    have hfirst := h.turns (nt :: rest) made
    have hnext := h'.turns rest (made + r.result.length)
    rw [Nat.add_assoc, ← List.length_append] at hnext
    rw [List.append_assoc]
    exact hfirst.trans hnext

/-- A nonterminal without a rule comes off the list and leaves nothing behind. -/
theorem factored_of_no_rule (hg : g.Orderly) (h : g.rule? nt = none) : Factored g [nt] ⟨g, [], []⟩ where
  orderly := hg
  amended := Amended.refl g _
  fresh := rfl
  size := rfl
  separated m hm := by
    rcases hm with hm | hm
    · rw [List.mem_singleton.1 hm]
      exact separated_of_no_rule h
    · exact separated_of_le hg.toWellFormed hm
  turns rest made := by
    have hturn := Worklist.turn_pass hg nt rest made
    rw [pass_of_separated (separated_of_no_rule h)] at hturn
    exact ReflTransGen.single hturn

/-- A pass over the rule of a nonterminal, and then all that came of it. -/
theorem factored_of_pass (hg : g.Orderly) {s : Revised (List Nat)}
    (h : Factored (pass g nt).grammar (pass g nt).result.reverse s) :
    Factored g [nt]
      ⟨s.grammar, (pass g nt).result ++ s.result, (pass g nt).journal ++ s.journal⟩ := by
  obtain ⟨hseparated, hfresh, hsize, _⟩ := pass_spec hg nt
  have hamended := amended_pass hg nt
  have hwellFormed := (keeps_pass hg nt).1.toWellFormed
  refine ⟨h.orderly, ?_, range'_of_append hfresh hsize h.fresh, ?_, fun m hm => ?_, fun rest made => ?_⟩
  · refine (hamended.mono fun m _ hm => List.mem_singleton.2 hm).trans h.amended fun m hlt hm => ?_
    have hle := le_of_mem_pass hg (List.mem_reverse.1 hm)
    omega
  · rw [h.size, hsize, List.length_append, Nat.add_assoc]
  · by_cases hlater : m ∈ (pass g nt).result.reverse ∨ (pass g nt).grammar.nonterminals.size ≤ m
    · exact h.separated m hlater
    · -- what is not on the list is the nonterminal itself, since all that is new was put there
      obtain ⟨hnot, hlt⟩ := not_or.1 hlater
      have hown : m = nt := by
        refine List.mem_singleton.1 (hm.resolve_right fun hle => hnot ?_)
        rw [List.mem_reverse, hfresh, List.mem_range'_1]
        omega
      rw [hown] at hnot hlt ⊢
      exact hseparated.of_grows hwellFormed h.amended.grows (h.amended.kept nt (by omega) hnot)
  · have hnext := h.turns rest (made + (pass g nt).result.length)
    rw [Nat.add_assoc, ← List.length_append] at hnext
    exact ReflTransGen.head (Worklist.turn_pass hg nt rest made) hnext

/-- **As many generations as the rule is large are enough.** -/
theorem factored_factorWithin : ∀ (depth : Nat) {g : Grammar} (nt : Nat), g.Orderly →
    ruleSize g nt ≤ depth → Factored g [nt] (factorWithin depth g nt) := by
  intro depth
  induction depth with
  | zero =>
      intro g nt hg hsize
      refine factored_of_no_rule hg ?_
      cases hrule : g.rule? nt with
      | none => rfl
      | some rule =>
          have hpos := Tree.size_pos rule
          rw [ruleSize_eq hrule] at hsize
          omega
  | succ depth ih =>
      intro g nt hg hsize
      obtain ⟨_, hfresh, hgrown, hsmaller⟩ := pass_spec hg nt
      have hstart := factored_nil (keeps_pass hg nt).1
      rw [factorWithin, passes_eq_pass hg nt (by decide)]
      refine factored_of_pass hg (reviseEach_induction (Q := Factored _) hstart ?_)
      intro done m r hinitial h
      have hmem : m ∈ (pass g nt).result := List.mem_reverse.1 (mem_of_initial hinitial)
      have hlt : m < (pass g nt).grammar.nonterminals.size := by
        rw [hfresh, List.mem_range'_1] at hmem
        omega
      have hnodup : (pass g nt).result.Nodup := by
        rw [hfresh]
        exact List.nodup_range'
      have hnot := not_mem_of_initial hinitial (List.nodup_reverse.2 hnodup)
      -- its rule is as the pass has left it
      have hrule : ruleSize r.grammar m < ruleSize g nt := by
        rw [ruleSize_congr (h.amended.kept m hlt hnot)]
        exact hsmaller m hmem
      exact h.andThen (ih m h.orderly (by omega))

theorem factored_factor (hg : g.Orderly) (nt : Nat) : Factored g [nt] (factor g nt) :=
  factored_factorWithin _ nt hg (Nat.le_refl _)

theorem factored_factorAll (hg : g.Orderly) : Factored g g.nonterminals.ids (factorAll g) :=
  reviseEach_induction (Q := Factored g) (factored_nil hg)
    fun _ nt _ _ h => h.andThen (factored_factor h.orderly nt)

/-- A separated rule is left alone. -/
theorem factor_of_separated (hg : g.Orderly) (h : Separated g nt) : factor g nt = ⟨g, [], []⟩ := by
  unfold factor
  cases ruleSize g nt with
  | zero => rfl
  | succ depth =>
      rw [factorWithin, passes_eq_pass hg nt (by decide), pass_of_separated h]
      rfl

/-! ### All rules -/

/-- **Factoring comes to an end, and a second factoring changes nothing.**  The worklist of a nonterminal
and that of all nonterminals become empty at the grammar that factoring gives, with as many nonterminals
made as it finds, which are as many as the table has more.  In every grammar on the way, a second pass
over a rule finds nothing and changes nothing, so that any number of passes from two on comes to the same.
At the end no two alternatives of a rule begin with elements of the same text, and another factoring of
all rules finds nothing and leaves the grammar as it is. -/
theorem factoring_ends_separated (g : Grammar) (hg : g.Obtained) :
    (∀ nt, ReflTransGen Worklist.Turn ⟨g, [nt], 0⟩
        ⟨(factor g nt).grammar, [], (factor g nt).result.length⟩ ∧
      (factor g nt).grammar.nonterminals.size =
        g.nonterminals.size + (factor g nt).result.length) ∧
    (ReflTransGen Worklist.Turn ⟨g, g.nonterminals.ids, 0⟩
        ⟨(factorAll g).grammar, [], (factorAll g).result.length⟩ ∧
      (factorAll g).grammar.nonterminals.size =
        g.nonterminals.size + (factorAll g).result.length) ∧
    (∀ nts s, ReflTransGen Worklist.Turn ⟨g, nts, 0⟩ s → ∀ nt,
      pass (pass s.grammar nt).grammar nt = ⟨(pass s.grammar nt).grammar, [], []⟩ ∧
      ∀ left, 2 ≤ left → passes nt left s.grammar = passes nt 2 s.grammar) ∧
    (∀ nt rule, (factorAll g).grammar.rule? nt = some rule →
      rule.alternatives.Pairwise fun t u =>
        firstText (factorAll g).grammar t ≠ firstText (factorAll g).grammar u) ∧
    factorAll (factorAll g).grammar = ⟨(factorAll g).grammar, [], []⟩ := by
  have horderly := hg.orderly
  have hall := factored_factorAll horderly
  have hseparated : ∀ nt, Separated (factorAll g).grammar nt := by
    intro nt
    refine hall.separated nt ?_
    rw [SymbolTable.ids, List.mem_range]
    exact Nat.lt_or_ge nt _
  refine ⟨fun nt => ?_, ⟨?_, hall.size⟩, fun nts s hturns nt => ?_, hseparated, ?_⟩
  · have hone := factored_factor horderly nt
    have hturns := hone.turns [] 0
    rw [Nat.zero_add] at hturns
    exact ⟨hturns, hone.size⟩
  · have hturns := hall.turns [] 0
    rw [Nat.zero_add, List.append_nil] at hturns
    exact hturns
  · have hs := Worklist.orderly_of_turns hturns horderly
    refine ⟨pass_pass hs nt, fun left hleft => ?_⟩
    rw [passes_eq_pass hs nt hleft, passes_eq_pass hs nt (Nat.le_refl 2)]
  · exact reviseEach_eq_self fun nt _ => factor_of_separated hall.orderly (hseparated nt)

/-- Alternatives that share two elements or one, where nothing remains of one of them and a choice of
another one, one that stands twice, two that share the empty word, and a name that a new nonterminal would
get. -/
def prefixesText : String :=
  "S : 'a' , 'b' , 'c' ; 'a' , 'b' ; 'a' , ('x' ; 'y') ; 'a' , 'b' ; @ , 'p' ; @ , 'x' , S_fac .\n" ++
    "S_fac : 'a' ; 'a' .\nEOGram!"

def prefixes : Grammar where
  terminals := ⟨#["", "a", "b", "c", "x", "y", "p"], by decide⟩
  nonterminals := ⟨#["S", "S_fac"], by decide⟩
  semantics := SymbolTable.empty
  macros := SymbolTable.empty
  rules := #[
    some (.alt (.alt (.alt (.alt (.alt
      (.seq (.seq (.terminal 1) (.terminal 2)) (.terminal 3))
      (.seq (.terminal 1) (.terminal 2)))
      (.seq (.terminal 1) (.alt (.terminal 4) (.terminal 5))))
      (.seq (.terminal 1) (.terminal 2)))
      (.seq (.terminal 0) (.terminal 6)))
      (.seq (.seq (.terminal 0) (.terminal 4)) (.reference 1 false))),
    some (.alt (.terminal 1) (.terminal 1))]
  emptyName := by decide

/-- Three nonterminals are made, one of them for the rule of another, and a second factoring makes none. -/
theorem factoring_ends_separated_prefixes : prefixes.Obtained ∧
    (factorAll prefixes).result = [2, 3, 4] ∧
    (factorAll prefixes).grammar.nonterminals.size = 5 ∧
    (factorAll prefixes).grammar.rule? 0 =
      some (.alt (.seq (.terminal 1) (.reference 2 false)) (.reference 3 false)) ∧
    ReflTransGen Worklist.Turn ⟨prefixes, [0, 1], 0⟩ ⟨(factorAll prefixes).grammar, [], 3⟩ ∧
    factorAll (factorAll prefixes).grammar = ⟨(factorAll prefixes).grammar, [], []⟩ := by
  have hbuild : build prefixesText = .ok prefixes := build_eq_ok_of_toOption (by decide +kernel)
  have hobtained : prefixes.Obtained := .build hbuild
  have hresult : (factorAll prefixes).result = [2, 3, 4] := by decide +kernel
  obtain ⟨_, ⟨hturns, hsize⟩, _, _, hagain⟩ := factoring_ends_separated prefixes hobtained
  rw [hresult] at hturns hsize
  exact ⟨hobtained, hresult, hsize, by decide +kernel, hturns, hagain⟩

end RuleGrammar.Factoring
