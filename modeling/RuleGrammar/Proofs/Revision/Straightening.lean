import RuleGrammar.Proofs.Revision.LeftRecursion

/-!
# What is left of left recursion

A base that is followed by the tail begins as it did before, or with the tail if it was the empty word;
and what follows the nonterminal in one of its alternatives cannot begin with the tail, which is new.  So
neither of the two rules that a revision sets is left recursive.  The revisions of other rules leave them
alone, and what is still left recursive at the end has no base to begin with.

* `leadsWith_seq`, `leadsWith_join`, `leadsWith_of_covers`: what an alternative begins with.
* `not_leads_of_bases`, `not_leads_headRule`, `not_leads_tailRule`: the rules that a revision sets.
* `Straightened`: what holds when some rules are done; `straightened_eliminatePair`: one rule;
  `Straightened.andThen`, `straightened_eliminateAll`: one rule after another.
* `eliminateAll_leaves_straight`: what is left recursive at the end, the pairs, and a second run.
-/

namespace RuleGrammar.LeftRecursion

open Grammar RuleGrammar.Tree

variable {g : Grammar} {nt m tail : Nat} {a head rest : Rule} {ts : List Rule}

/-! ### What an alternative begins with -/

theorem leadsWith_seq (nt : Nat) (l r : Rule) : leadsWith nt (.seq l r) = leadsWith nt l := by
  unfold leadsWith
  rw [Tree.sequence, List.head?_append_of_ne_nil _ (sequence_ne_nil l)]

/-- A covered tree does not begin with a nonterminal that is not in the table. -/
theorem leadsWith_of_covers (ha : g.Covers a) (hnt : g.nonterminals.size ≤ nt) :
    leadsWith nt a = false := by
  by_contra hlead
  obtain ⟨opened, others, hsequence⟩ := exists_sequence_of_leadsWith (by simpa using hlead)
  have hcovers : g.Covers (.reference nt opened) := by
    refine ha.of_mem_sequence ?_
    rw [hsequence]
    exact List.mem_cons_self ..
  have hlt : nt < g.nonterminals.size := hcovers
  omega

/-- A tree that is followed by another nonterminal begins as it did before. -/
theorem leadsWith_join (htail : tail ≠ nt) (b : Rule) :
    leadsWith nt (b.join (.reference tail false)) = leadsWith nt b := by
  rw [join_reference]
  split
  · next hepsilon =>
      rw [eq_epsilon_of_isEpsilon hepsilon]
      simpa [leadsWith, Tree.sequence, epsilon] using htail
  · exact leadsWith_seq nt b _

/-! ### The rules that are set -/

/-- A rule that is put together from bases does not begin with the nonterminal. -/
theorem not_leads_of_bases {rule : Rule} (h : alternation (bases nt rule) = some head) :
    ∀ a ∈ head.alternatives, leadsWith nt a = false := by
  intro a ha
  rw [alternatives_eq_of_alternation h
    fun b hb => alternatives_of_mem_alternatives (mem_bases.1 hb).1] at ha
  exact (mem_bases.1 ha).2

theorem not_leads_headRule {rule : Rule} (htail : tail ≠ nt)
    (h : headRule (bases nt rule) tail = some head) :
    ∀ a ∈ head.alternatives, leadsWith nt a = false := by
  have hsingle : ∀ a ∈ (bases nt rule).map fun b => b.join (.reference tail false),
      a.alternatives = [a] := by
    intro a ha
    obtain ⟨b, _, rfl⟩ := List.mem_map.1 ha
    exact alternatives_join_reference b tail
  intro a ha
  rw [alternatives_eq_of_alternation h hsingle] at ha
  obtain ⟨b, hb, rfl⟩ := List.mem_map.1 ha
  rw [leadsWith_join htail]
  exact (mem_bases.1 hb).2

theorem not_leads_tailRule (hts : ∀ t ∈ ts, leadsWith tail t = false)
    (h : tailRule ts tail = some rest) : ∀ a ∈ rest.alternatives, leadsWith tail a = false := by
  intro a ha
  rw [alternatives_of_alternation h, List.flatMap_append, List.mem_append] at ha
  rcases ha with ha | ha
  · obtain ⟨_, hmem, ha⟩ := List.mem_flatMap.1 ha
    obtain ⟨t, ht, rfl⟩ := List.mem_map.1 hmem
    rw [List.mem_singleton.1 ha, leadsWith_seq]
    exact hts t ht
  · rw [show a = epsilon by simpa [alternatives, epsilon] using ha]
    rfl

/-! ### Nonterminals that are not left recursive -/

theorem isRecursive_eq_false_iff : isRecursive g nt = false ↔
    ∀ rule, g.rule? nt = some rule → ∀ a ∈ rule.alternatives, leadsWith nt a = false := by
  unfold isRecursive
  cases hrule : g.rule? nt with
  | none => simp
  | some rule => simp

theorem isRecursive_of_le (hg : g.WellFormed) (hm : g.nonterminals.size ≤ m) :
    isRecursive g m = false := by
  refine isRecursive_eq_false_iff.2 fun rule hrule => ?_
  have hlt := hg.owned hrule
  omega

theorem isRecursive_congr {g' : Grammar} (h : g'.rule? m = g.rule? m) :
    isRecursive g' m = isRecursive g m := by
  unfold isRecursive
  rw [h]

theorem straight_of_not_recursive (h : isRecursive g nt = false) : Straight g nt := by
  intro hrecursive
  rw [h] at hrecursive
  cases hrecursive

theorem Straight.congr {g' : Grammar} (h : Straight g m) (hrule : g'.rule? m = g.rule? m) :
    Straight g' m := by
  unfold Straight
  rw [isRecursive_congr hrule, hrule]
  exact h

/-! ### One rule after another -/

/-- What holds when the rules of some nonterminals have been revised. -/
structure Straightened (g : Grammar) (nts : List Nat) (r : Revised (List (Nat × Nat))) : Prop where
  wellFormed : r.grammar.WellFormed
  nonterminals : g.nonterminals.Extends r.grammar.nonterminals
  kept : ∀ m, m < g.nonterminals.size → ¬ m ∈ nts → r.grammar.rule? m = g.rule? m
  size : r.grammar.nonterminals.size = g.nonterminals.size + r.result.length
  tails : r.result.map Prod.snd = List.range' g.nonterminals.size r.result.length
  heads : ∀ pair ∈ r.result, pair.1 ∈ nts ∧ isRecursive r.grammar pair.1 = false
  straight : ∀ nt ∈ nts, Straight r.grammar nt
  fresh : ∀ m, g.nonterminals.size ≤ m → isRecursive r.grammar m = false

theorem straightened_nil (hg : g.WellFormed) : Straightened g [] ⟨g, [], []⟩ where
  wellFormed := hg
  nonterminals := SymbolTable.Extends.refl _
  kept _ _ _ := rfl
  size := rfl
  tails := rfl
  heads pair hpair := by cases hpair
  straight nt hnt := by cases hnt
  fresh m hm := isRecursive_of_le hg hm

/-- A rule of which some alternatives were dropped. -/
theorem straightened_dropped (hwellFormed : (g.setRule nt head).WellFormed)
    (hhead : ∀ a ∈ head.alternatives, leadsWith nt a = false) (journal : List Journal.Entry) :
    Straightened g [nt] ⟨g.setRule nt head, [], journal⟩ where
  wellFormed := hwellFormed
  nonterminals := SymbolTable.Extends.refl _
  kept m _ hm := by
    rw [rule?_setRule, if_neg fun h => hm (List.mem_singleton.2 h)]
  size := rfl
  tails := rfl
  heads pair hpair := by cases hpair
  straight m hm := by
    rw [List.mem_singleton.1 hm]
    refine straight_of_not_recursive (isRecursive_eq_false_iff.2 fun other hother => ?_)
    rw [rule?_setRule, if_pos rfl] at hother
    cases hother
    exact hhead
  fresh _ hm := isRecursive_of_le hwellFormed hm

/-- A rule that got a tail. -/
theorem straightened_tailed {g' : Grammar} (hwellFormed : g'.WellFormed) (hgrows : g.Grows g')
    (hsize : g'.nonterminals.size = g.nonterminals.size + 1) (hnt : nt < g.nonterminals.size)
    (hrules : ∀ m, g'.rule? m =
      if m = g.nonterminals.size then some rest else if m = nt then some head else g.rule? m)
    (hhead : ∀ a ∈ head.alternatives, leadsWith nt a = false)
    (hrest : ∀ a ∈ rest.alternatives, leadsWith g.nonterminals.size a = false)
    (journal : List Journal.Entry) :
    Straightened g [nt] ⟨g', [(nt, g.nonterminals.size)], journal⟩ := by
  have hown : isRecursive g' nt = false := by
    refine isRecursive_eq_false_iff.2 fun other hother => ?_
    rw [hrules, if_neg (by omega), if_pos rfl] at hother
    cases hother
    exact hhead
  have htail : isRecursive g' g.nonterminals.size = false := by
    refine isRecursive_eq_false_iff.2 fun other hother => ?_
    rw [hrules, if_pos rfl] at hother
    cases hother
    exact hrest
  refine ⟨hwellFormed, hgrows.nonterminals, fun m hm hne => ?_, hsize, rfl, fun pair hpair => ?_,
    fun m hm => ?_, fun m hm => ?_⟩
  · rw [hrules, if_neg (by omega), if_neg fun h => hne (List.mem_singleton.2 h)]
  · rw [List.mem_singleton.1 hpair]
    exact ⟨List.mem_singleton_self nt, hown⟩
  · rw [List.mem_singleton.1 hm]
    exact straight_of_not_recursive hown
  · by_cases hlast : m = g.nonterminals.size
    · rw [hlast]
      exact htail
    · have hle : g'.nonterminals.size ≤ m := by omega
      exact isRecursive_of_le hwellFormed hle

/-- The revision of one rule leaves a straight one, and a tail that is not left recursive. -/
theorem straightened_eliminatePair (hg : g.WellFormed) (nt : Nat) :
    Straightened g [nt] (eliminatePair g nt) := by
  have hwellFormed := wellFormed_eliminate hg nt
  show Straightened g [nt] ⟨(eliminate g nt).grammar,
    (eliminate g nt).result.toList.map fun tail => (nt, tail), (eliminate g nt).journal⟩
  rcases eliminate_cases g nt with ⟨hstraight, hsame⟩ | ⟨rule, head, hrule, _, hhead, hset, hresult⟩ |
    ⟨rule, head, rest, hrule, hhead, hrest, hset, hresult⟩
  · rw [hsame]
    refine { straightened_nil hg with kept := fun _ _ _ => rfl, heads := nofun, straight := ?_ }
    intro m hm
    rw [List.mem_singleton.1 hm]
    exact hstraight
  · rw [hset] at hwellFormed
    rw [hset, hresult]
    exact straightened_dropped hwellFormed (not_leads_of_bases hhead) _
  · have hnt := hg.owned hrule
    obtain ⟨_, hsize, hrules, hgrows⟩ := g.addFresh_spec (g.nonterminalName nt ++ "_rec")
    rw [hset] at hwellFormed
    rw [hset, hresult]
    have hgrows' := (hgrows.trans (grows_setRule _ nt head)).trans (grows_setRule _ g.nonterminals.size rest)
    refine straightened_tailed hwellFormed hgrows' hsize hnt (fun m => ?_)
      (not_leads_headRule (by omega) hhead) (not_leads_tailRule (fun t ht => ?_) hrest) _
    · rw [rule?_setRule, rule?_setRule, hrules]
    · -- what follows the nonterminal is over the old table, and the tail is not in it
      refine leadsWith_of_covers ?_ (Nat.le_refl g.nonterminals.size)
      exact piecewise_of_mem_tails (piecewise_covers g) (hg.covered hrule) ht

/-- Further nonterminals of the table may be revised. -/
theorem Straightened.andThen {done : List Nat} {r s : Revised (List (Nat × Nat))}
    (h : Straightened g done r) (h' : Straightened r.grammar [nt] s) (hnt : nt < g.nonterminals.size)
    (hnot : ¬ nt ∈ done) (hdone : ∀ m ∈ done, m < g.nonterminals.size) :
    Straightened g (done ++ [nt]) ⟨s.grammar, r.result ++ s.result, r.journal ++ s.journal⟩ := by
  have hsize := h.size
  -- what was there before and is not revised now is as it was
  have hkept : ∀ m, m < r.grammar.nonterminals.size → m ≠ nt →
      s.grammar.rule? m = r.grammar.rule? m :=
    fun m hm hne => h'.kept m hm fun hmem => hne (List.mem_singleton.1 hmem)
  refine ⟨h'.wellFormed, h.nonterminals.trans h'.nonterminals, fun m hm hmem => ?_, ?_, ?_, ?_, ?_, ?_⟩
  · rw [hkept m (by omega) fun hmn => hmem (by rw [hmn]; simp)]
    exact h.kept m hm fun hmem' => hmem (List.mem_append_left _ hmem')
  · rw [List.length_append, h'.size, hsize, Nat.add_assoc]
  · rw [List.map_append, h.tails, h'.tails, hsize, List.length_append]
    exact List.range'_append_1
  · intro pair hpair
    rcases List.mem_append.1 hpair with hpair | hpair
    · obtain ⟨hmem, hrecursive⟩ := h.heads pair hpair
      have hlt := hdone pair.1 hmem
      refine ⟨List.mem_append_left _ hmem, ?_⟩
      rw [isRecursive_congr (hkept pair.1 (by omega) fun hpn => hnot (hpn ▸ hmem))]
      exact hrecursive
    · obtain ⟨hmem, hrecursive⟩ := h'.heads pair hpair
      exact ⟨List.mem_append_right _ hmem, hrecursive⟩
  · intro m hmem
    rcases List.mem_append.1 hmem with hmem | hmem
    · have hlt := hdone m hmem
      exact (h.straight m hmem).congr (hkept m (by omega) fun hmn => hnot (hmn ▸ hmem))
    · exact h'.straight m hmem
  · intro m hm
    by_cases hold : m < r.grammar.nonterminals.size
    · rw [isRecursive_congr (hkept m hold (by omega))]
      exact h.fresh m hm
    · exact h'.fresh m (by omega)

theorem straightened_eliminateAll (hg : g.WellFormed) :
    Straightened g g.nonterminals.ids (eliminateAll g) := by
  refine reviseEach_induction (Q := Straightened g) (straightened_nil hg) fun done nt r hinitial h => ?_
  have hlt : ∀ m ∈ done ++ [nt], m < g.nonterminals.size :=
    fun m hm => List.mem_range.1 (hinitial.subset hm)
  exact h.andThen (straightened_eliminatePair h.wellFormed nt) (hlt nt (by simp))
    (not_mem_of_initial hinitial List.nodup_range) fun m hm => hlt m (List.mem_append_left _ hm)

/-! ### All rules -/

/-- **What is left of left recursion cannot be removed.**  After the elimination, the rule of a
nonterminal that is still left recursive has no alternative that begins with anything else.  In a pair
that was found, neither nonterminal is left recursive; the first one was in the table before, and the
second one was not, neither its number nor its name; no two pairs share a tail.  A second run finds
nothing and changes nothing. -/
theorem eliminateAll_leaves_straight (g : Grammar) (hg : g.WellFormed) :
    (∀ nt, isRecursive (eliminateAll g).grammar nt = true →
      ∃ rule, (eliminateAll g).grammar.rule? nt = some rule ∧
        ∀ a ∈ rule.alternatives, leadsWith nt a = true) ∧
    (∀ pair ∈ (eliminateAll g).result,
      isRecursive (eliminateAll g).grammar pair.1 = false ∧
      isRecursive (eliminateAll g).grammar pair.2 = false ∧
      pair.1 < g.nonterminals.size ∧ g.nonterminals.size ≤ pair.2 ∧
      ∃ name, (eliminateAll g).grammar.nonterminals.name? pair.2 = some name ∧
        ¬ name ∈ g.nonterminals.names) ∧
    ((eliminateAll g).result.map Prod.snd).Nodup ∧
    eliminateAll (eliminateAll g).grammar = ⟨(eliminateAll g).grammar, [], []⟩ := by
  have h := straightened_eliminateAll hg
  have hstraight : ∀ nt, Straight (eliminateAll g).grammar nt := by
    intro nt
    by_cases hnt : nt < g.nonterminals.size
    · exact h.straight nt (List.mem_range.2 hnt)
    · exact straight_of_not_recursive (h.fresh nt (by omega))
  refine ⟨hstraight, fun pair hpair => ?_, ?_, ?_⟩
  · obtain ⟨hmem, hhead⟩ := h.heads pair hpair
    have htail : pair.2 ∈ List.range' g.nonterminals.size (eliminateAll g).result.length := by
      rw [← h.tails]
      exact List.mem_map_of_mem hpair
    obtain ⟨hle, hlt⟩ := List.mem_range'_1.1 htail
    have hsize := h.size
    obtain ⟨name, hname⟩ := SymbolTable.exists_name?_of_lt
      (show pair.2 < (eliminateAll g).grammar.nonterminals.size by omega)
    exact ⟨hhead, h.fresh pair.2 hle, List.mem_range.1 hmem, hle, name, hname,
      h.nonterminals.not_mem_of_name? hle hname⟩
  · rw [h.tails]
    exact List.nodup_range'
  · refine reviseEach_eq_self fun nt _ => ?_
    rw [eliminatePair, eliminate_of_straight (hstraight nt)]
    rfl

/-- A rule with itself and with the empty word among its alternatives, and with a base that begins with a
choice of itself; a rule that consists of itself and a further element, and holds the name that the tail
of the first one would get; and a rule with a tail that is a choice. -/
def braided : Grammar where
  terminals := ⟨#["", "a", "d"], by decide⟩
  nonterminals := ⟨#["E", "E_rec", "L"], by decide⟩
  semantics := SymbolTable.empty
  macros := SymbolTable.empty
  rules := #[
    some (.alt (.alt (.alt (.seq (.reference 0 false) (.terminal 1)) (.reference 0 false)) (.terminal 0))
      (.seq (.alt (.reference 0 false) (.terminal 1)) (.terminal 2))),
    some (.seq (.reference 1 true) (.terminal 1)),
    some (.alt (.terminal 2)
      (.seq (.reference 2 false) (.alt (.terminal 2) (.reference 2 false))))]
  emptyName := by decide

/-- Two of the braided rules get tails, the one in the middle stays left recursive, and a second run
changes nothing. -/
theorem eliminateAll_leaves_straight_braided : braided.WellFormed ∧
    (eliminateAll braided).result = [(0, 3), (2, 4)] ∧
    isRecursive (eliminateAll braided).grammar 1 = true ∧
    (∃ rule, (eliminateAll braided).grammar.rule? 1 = some rule ∧
      ∀ a ∈ rule.alternatives, leadsWith 1 a = true) ∧
    isRecursive (eliminateAll braided).grammar 2 = false ∧
    isRecursive (eliminateAll braided).grammar 4 = false ∧
    eliminateAll (eliminateAll braided).grammar = ⟨(eliminateAll braided).grammar, [], []⟩ := by
  have hwellFormed : braided.WellFormed := by decide +kernel
  have hresult : (eliminateAll braided).result = [(0, 3), (2, 4)] := by decide +kernel
  have hrecursive : isRecursive (eliminateAll braided).grammar 1 = true := by decide +kernel
  obtain ⟨hstraight, hpairs, _, hagain⟩ := eliminateAll_leaves_straight braided hwellFormed
  obtain ⟨hhead, htail, _⟩ := hpairs (2, 4) (by rw [hresult]; decide)
  exact ⟨hwellFormed, hresult, hrecursive, hstraight 1 hrecursive, hhead, htail, hagain⟩

end RuleGrammar.LeftRecursion
