import RuleGrammar.Proofs.Revision
import RuleGrammar.Revision.LeftRecursion

/-!
# Eliminating left recursion keeps every language

The words of a left-recursive nonterminal are a word of a base and then words of tails, one after the
other.  After the revision the base comes from the rule of the nonterminal, and the words of tails from
the new nonterminal.  In one direction, what the new nonterminal reads can be put behind any word of the
old one; in the other direction, a further tail can be put behind any word of the new one.

* `spells_recursive_iff`: a rule by its bases and tails.
* `language_iff_of_dropped`: a rule without tails; `HasTail`: a rule with tails, and both inclusions.
* `Straight`: a nonterminal whose rule cannot be revised; `eliminate_cases`: what the revision of one
  rule can do; `eliminate_invariant`.
* `keeps_eliminate`, `keeps_eliminateAll`: the revisions keep every language.
-/

namespace RuleGrammar.LeftRecursion

open Grammar RuleGrammar.Tree

variable {g g' : Grammar} {nt : Nat} {rule a t : Rule} {S : Nat → Word → Prop} {w : Word}
  {P : Rule → Prop}

/-! ### Bases and tails -/

theorem mem_bases : a ∈ bases nt rule ↔ a ∈ rule.alternatives ∧ leadsWith nt a = false := by
  simp [bases]

theorem mem_tails : t ∈ tails nt rule ↔
    ∃ a ∈ rule.alternatives, leadsWith nt a = true ∧ concatenation a.sequence.tail = some t := by
  simp only [tails, List.mem_filterMap, List.mem_filter, and_assoc]

theorem exists_sequence_of_leadsWith (h : leadsWith nt a = true) :
    ∃ opened rest, a.sequence = .reference nt opened :: rest := by
  unfold leadsWith at h
  split at h
  · next id opened hhead =>
      rw [beq_iff_eq] at h
      subst h
      obtain ⟨rest, hrest⟩ := List.head?_eq_some_iff.1 hhead
      exact ⟨opened, rest, hrest⟩
  · cases h

/-- An alternative that begins with the nonterminal has a word of it in front of what follows. -/
theorem spells_iff_of_leadsWith (h : leadsWith nt a = true) : a.Spells (Letter 0) S w ↔
    ∃ u v, w = u ++ v ∧ S nt u ∧ SpellsEach S a.sequence.tail v := by
  obtain ⟨opened, rest, hseq⟩ := exists_sequence_of_leadsWith h
  rw [spells_iff_sequence, hseq]
  exact Iff.rfl

/-- A rule has the words of its bases, the words of the nonterminal itself if that is one of the
alternatives, and the words of the nonterminal with a tail behind them. -/
theorem spells_recursive_iff (nt : Nat) : rule.Spells (Letter 0) S w ↔
    (∃ b ∈ bases nt rule, b.Spells (Letter 0) S w) ∨
      (S nt w ∧ ∃ a ∈ rule.alternatives, leadsWith nt a = true ∧ a.sequence.tail = []) ∨
      ∃ t ∈ tails nt rule, ∃ u v, w = u ++ v ∧ S nt u ∧ t.Spells (Letter 0) S v := by
  rw [spells_iff_alternatives]
  constructor
  · rintro ⟨a, ha, hspells⟩
    by_cases hlead : leadsWith nt a = true
    · obtain ⟨u, v, rfl, hu, hv⟩ := (spells_iff_of_leadsWith hlead).1 hspells
      by_cases htail : a.sequence.tail = []
      · right; left
        rw [htail] at hv
        rw [show v = [] from hv, List.append_nil]
        exact ⟨hu, a, ha, hlead, htail⟩
      · right; right
        obtain ⟨t, ht⟩ := exists_concatenation htail
        exact ⟨t, mem_tails.2 ⟨a, ha, hlead, ht⟩, u, v, rfl, hu, (spells_of_concatenation ht).2 hv⟩
    · left
      exact ⟨a, mem_bases.2 ⟨ha, by simpa using hlead⟩, hspells⟩
  · rintro (⟨b, hb, hspells⟩ | ⟨hself, a, ha, hlead, htail⟩ | ⟨t, ht, u, v, rfl, hu, hv⟩)
    · exact ⟨b, (mem_bases.1 hb).1, hspells⟩
    · refine ⟨a, ha, (spells_iff_of_leadsWith hlead).2 ⟨w, [], by simp, hself, ?_⟩⟩
      rw [htail]
      rfl
    · obtain ⟨a, ha, hlead, hcat⟩ := mem_tails.1 ht
      exact ⟨a, ha, (spells_iff_of_leadsWith hlead).2
        ⟨u, v, rfl, hu, (spells_of_concatenation hcat).1 hv⟩⟩

theorem piecewise_of_mem_bases (hP : Piecewise P) (h : P rule) (ha : a ∈ bases nt rule) : P a :=
  hP.of_mem_alternatives h (mem_bases.1 ha).1

theorem piecewise_of_mem_tails (hP : Piecewise P) (h : P rule) (ht : t ∈ tails nt rule) : P t := by
  obtain ⟨a, ha, _, hcat⟩ := mem_tails.1 ht
  refine hP.of_concatenation hcat fun b hb => ?_
  exact hP.of_mem_sequence (hP.of_mem_alternatives h ha) (List.mem_of_mem_tail hb)

/-! ### A rule without tails -/

/-- Dropping the alternatives that are the nonterminal alone keeps every language. -/
theorem language_iff_of_dropped (hrule : g.rule? nt = some rule)
    (htails : tails nt rule = []) {head : Rule} (hhead : alternation (bases nt rule) = some head)
    {m : Nat} : (g.setRule nt head).Language m w ↔ g.Language m w := by
  constructor
  · refine language_least fun m other w hm hother hspells => ?_
    rw [rule?_setRule] at hother
    split at hother
    · next hmn =>
        cases hother
        subst hmn
        refine language_iff.2 ⟨hm, rule, hrule, derives_iff_spells.2 ((spells_recursive_iff m).2 ?_)⟩
        exact Or.inl ((spells_of_alternation hhead).1 hspells)
    · exact language_iff.2 ⟨hm, other, hother, derives_iff_spells.2 hspells⟩
  · refine language_least fun m other w hm hother hspells => ?_
    by_cases hmn : m = nt
    · subst hmn
      rw [hrule] at hother
      cases hother
      rcases (spells_recursive_iff m).1 hspells with hbase | hself | ⟨t, ht, _⟩
      · refine language_iff.2 ⟨hm, head, by rw [rule?_setRule, if_pos rfl], derives_iff_spells.2 ?_⟩
        exact (spells_of_alternation hhead).2 hbase
      · exact hself.1
      · rw [htails] at ht
        cases ht
    · refine language_iff.2 ⟨hm, other, ?_, derives_iff_spells.2 hspells⟩
      rw [rule?_setRule, if_neg hmn]
      exact hother

/-! ### A rule with tails -/

/-- What the second grammar has in the place of a left-recursive rule. -/
structure HasTail (g g' : Grammar) (nt : Nat) (rule : Rule) : Prop where
  size : g'.nonterminals.size = g.nonterminals.size + 1
  other : ∀ m, m < g.nonterminals.size → m ≠ nt → g'.rule? m = g.rule? m
  -- the rule of the nonterminal: a base, and then the tail
  head : ∃ head, g'.rule? nt = some head ∧ ∀ S w, head.Spells (Letter 0) S w ↔
    ∃ b ∈ bases nt rule, ∃ u v, w = u ++ v ∧ b.Spells (Letter 0) S u ∧ S g.nonterminals.size v
  -- the rule of the tail: nothing, or a tail and then the tail again
  rest : ∃ rest, g'.rule? g.nonterminals.size = some rest ∧ ∀ S w, rest.Spells (Letter 0) S w ↔
    w = [] ∨ ∃ t ∈ tails nt rule, ∃ u v, w = u ++ v ∧ t.Spells (Letter 0) S u ∧
      S g.nonterminals.size v

/-- Words of old nonterminals are old words, and words of the tail can be put behind any word of the
nonterminal. -/
def Harmless (g : Grammar) (nt m : Nat) (w : Word) : Prop :=
  (m < g.nonterminals.size → g.Language m w) ∧
    (m = g.nonterminals.size → ∀ u, g.Language nt u → g.Language nt (u ++ w))

namespace HasTail

/-- Every word of an old nonterminal after the revision was one of its words. -/
theorem language_of_language (h : HasTail g g' nt rule) (hg : g.WellFormed)
    (hrule : g.rule? nt = some rule) {m : Nat} (hm : m < g.nonterminals.size)
    (hw : g'.Language m w) : g.Language m w := by
  have hnt := hg.owned hrule
  have hcovers := hg.covered hrule
  have hadd : ∀ t ∈ tails nt rule, ∀ u v, g.Language nt u → t.Spells (Letter 0) g.Language v →
      g.Language nt (u ++ v) := fun t ht u v hu hv =>
    language_iff.2 ⟨hnt, rule, hrule, derives_iff_spells.2
      ((spells_recursive_iff nt).2 (Or.inr (Or.inr ⟨t, ht, u, v, rfl, hu, hv⟩)))⟩
  have hold : ∀ {t : Rule} {v : Word}, g.Covers t →
      t.Spells (Letter 0) (Harmless g nt) v → t.Spells (Letter 0) g.Language v :=
    fun hcover hv => hv.mono_on (fun _ _ _ h => h) (fun _ _ hlt h => h.1 hlt) hcover.over
  have hall : Harmless g nt m w := by
    refine language_least ?_ hw
    intro m other w hm hother hspells
    -- the tail, the nonterminal itself, or any other nonterminal
    by_cases hnew : m = g.nonterminals.size
    · subst hnew
      refine ⟨fun hlt => absurd hlt (Nat.lt_irrefl _), fun _ u hu => ?_⟩
      obtain ⟨rest, hrest, hspec⟩ := h.rest
      rw [hrest] at hother
      cases hother
      rcases (hspec _ w).1 hspells with rfl | ⟨t, ht, x, y, rfl, hx, hy⟩
      · rw [List.append_nil]
        exact hu
      · rw [← List.append_assoc]
        have htailCovers : g.Covers t := piecewise_of_mem_tails (piecewise_covers g) hcovers ht
        exact hy.2 rfl _ (hadd t ht u x hu (hold htailCovers hx))
    · have hlt : m < g.nonterminals.size := by
        have := h.size
        omega
      refine ⟨fun _ => ?_, fun heq => absurd heq hnew⟩
      by_cases hmn : m = nt
      · subst hmn
        obtain ⟨head, hhead, hspec⟩ := h.head
        rw [hhead] at hother
        cases hother
        obtain ⟨b, hb, x, y, rfl, hx, hy⟩ := (hspec _ w).1 hspells
        have hbaseCovers : g.Covers b := piecewise_of_mem_bases (piecewise_covers g) hcovers hb
        have hbase : g.Language m x := language_iff.2 ⟨hlt, rule, hrule, derives_iff_spells.2
          ((spells_recursive_iff m).2 (Or.inl ⟨b, hb, hold hbaseCovers hx⟩))⟩
        exact hy.2 rfl x hbase
      · rw [h.other m hlt hmn] at hother
        exact language_iff.2 ⟨hlt, other, hother,
          derives_iff_spells.2 (hold (hg.covered hother) hspells)⟩
  exact hall.1 hm

/-- A further tail can be put behind any word of the tail. -/
theorem language_tail_append (h : HasTail g g' nt rule) (ht : t ∈ tails nt rule) {u v : Word}
    (hu : g'.Language g.nonterminals.size u) (hv : t.Spells (Letter 0) g'.Language v) :
    g'.Language g.nonterminals.size (u ++ v) := by
  obtain ⟨rest, hrest, hspec⟩ := h.rest
  have hlt : g.nonterminals.size < g'.nonterminals.size := by
    have := h.size
    omega
  have hstep : ∀ w, rest.Spells (Letter 0) g'.Language w → g'.Language g.nonterminals.size w :=
    fun w hw => language_iff.2 ⟨hlt, rest, hrest, derives_iff_spells.2 hw⟩
  have hall : g'.Language g.nonterminals.size u ∧
      (g.nonterminals.size = g.nonterminals.size → g'.Language g.nonterminals.size (u ++ v)) := by
    refine language_least (S := fun m u => g'.Language m u ∧
      (m = g.nonterminals.size → g'.Language g.nonterminals.size (u ++ v))) ?_ hu
    intro m other u hm hother hspells
    have hplain : other.Spells (Letter 0) g'.Language u := hspells.mono fun _ _ h => h.1
    refine ⟨language_iff.2 ⟨hm, other, hother, derives_iff_spells.2 hplain⟩, ?_⟩
    rintro rfl
    rw [hrest] at hother
    cases hother
    rcases (hspec _ u).1 hspells with rfl | ⟨s, hs, x, y, rfl, hx, hy⟩
    · refine hstep _ ((hspec _ _).2 (Or.inr ⟨t, ht, v, [], by simp, hv, ?_⟩))
      exact hstep _ ((hspec _ _).2 (Or.inl rfl))
    · rw [List.append_assoc]
      refine hstep _ ((hspec _ _).2 (Or.inr ⟨s, hs, x, y ++ v, rfl, ?_, hy.2 rfl⟩))
      exact hx.mono fun _ _ h => h.1
  exact hall.2 rfl

/-- Every word of a nonterminal is still one of its words. -/
theorem language_of_language_old (h : HasTail g g' nt rule) (hrule : g.rule? nt = some rule)
    {m : Nat} (hw : g.Language m w) : g'.Language m w := by
  obtain ⟨head, hhead, hheadSpec⟩ := h.head
  obtain ⟨rest, hrest, hrestSpec⟩ := h.rest
  have hsize := h.size
  have hempty : g'.Language g.nonterminals.size [] :=
    language_iff.2 ⟨by omega, rest, hrest, derives_iff_spells.2 ((hrestSpec _ _).2 (Or.inl rfl))⟩
  refine language_least (fun m other w hm hother hspells => ?_) hw
  by_cases hmn : m = nt
  · subst hmn
    rw [hrule] at hother
    cases hother
    have hstep : ∀ w, head.Spells (Letter 0) g'.Language w → g'.Language m w :=
      fun w hw => language_iff.2 ⟨by omega, head, hhead, derives_iff_spells.2 hw⟩
    rcases (spells_recursive_iff m).1 hspells with ⟨b, hb, hbase⟩ | hself |
        ⟨t, ht, u, v, rfl, hu, hv⟩
    · exact hstep w ((hheadSpec _ _).2 ⟨b, hb, w, [], by simp, hbase, hempty⟩)
    · exact hself.1
    · -- the word in front is a base with tails behind it, and this is one more tail
      obtain ⟨_, other, hother, hderives⟩ := language_iff.1 hu
      rw [hhead] at hother
      cases hother
      obtain ⟨b, hb, x, y, rfl, hx, hy⟩ := (hheadSpec _ _).1 (derives_iff_spells.1 hderives)
      rw [List.append_assoc]
      refine hstep _ ((hheadSpec _ _).2 ⟨b, hb, x, y ++ v, rfl, hx, ?_⟩)
      exact h.language_tail_append ht hy hv
  · refine language_iff.2 ⟨by omega, other, ?_, derives_iff_spells.2 hspells⟩
    rw [h.other m hm hmn]
    exact hother

end HasTail

/-! ### The revisions -/

theorem spells_headRule_iff {bases : List Rule} {tail : Nat} {head : Rule}
    (h : headRule bases tail = some head) : head.Spells (Letter 0) S w ↔
      ∃ b ∈ bases, ∃ u v, w = u ++ v ∧ b.Spells (Letter 0) S u ∧ S tail v := by
  rw [spells_of_alternation h]
  simp only [List.mem_map, exists_exists_and_eq_and, spells_join_iff, Spells]

theorem spells_tailRule_iff {tails : List Rule} {tail : Nat} {rest : Rule}
    (h : tailRule tails tail = some rest) : rest.Spells (Letter 0) S w ↔
      w = [] ∨ ∃ t ∈ tails, ∃ u v, w = u ++ v ∧ t.Spells (Letter 0) S u ∧ S tail v := by
  rw [spells_of_alternation h]
  simp only [List.mem_append, List.mem_map, List.mem_singleton, or_and_right, exists_or,
    exists_exists_and_eq_and, exists_eq_left, spells_epsilon_iff, Spells]
  exact Or.comm

theorem piecewise_headRule (hP : Piecewise P) {bases : List Rule} {tail : Nat} {head : Rule}
    (h : headRule bases tail = some head) (hbases : ∀ b ∈ bases, P b)
    (htail : P (.reference tail false)) : P head := by
  refine hP.of_alternation h fun a ha => ?_
  obtain ⟨b, hb, rfl⟩ := List.mem_map.1 ha
  exact hP.join (hbases b hb) htail

theorem piecewise_tailRule (hP : Piecewise P) {tails : List Rule} {tail : Nat} {rest : Rule}
    (h : tailRule tails tail = some rest) (htails : ∀ t ∈ tails, P t)
    (htail : P (.reference tail false)) : P rest := by
  refine hP.of_alternation h fun a ha => ?_
  rcases List.mem_append.1 ha with ha | ha
  · obtain ⟨t, ht, rfl⟩ := List.mem_map.1 ha
    exact hP.seq.2 ⟨htails t ht, htail⟩
  · rw [List.mem_singleton.1 ha]
    exact hP.epsilon

theorem isIdentifier_tailName {name : String} (h : Token.IsIdentifier name) :
    Token.IsIdentifier (name ++ "_rec") := by
  have hrest : "_rec".toList.all Token.isNameRest = true := by decide +kernel
  exact h.append (List.all_eq_true.1 hrest)

/-- A nonterminal is as straight as it gets: if its rule is left recursive at all, then all alternatives
begin with the nonterminal. -/
def Straight (g : Grammar) (nt : Nat) : Prop :=
  isRecursive g nt = true →
    ∃ rule, g.rule? nt = some rule ∧ ∀ a ∈ rule.alternatives, leadsWith nt a = true

/-- Either a nonterminal is straight, or its rule has alternatives of both kinds. -/
theorem straight_or (g : Grammar) (nt : Nat) : Straight g nt ∨ ∃ rule, g.rule? nt = some rule ∧
    rule.alternatives.any (leadsWith nt) = true ∧ bases nt rule ≠ [] := by
  by_cases hstraight : Straight g nt
  · exact Or.inl hstraight
  · obtain ⟨hrecursive, hnot⟩ := Classical.not_imp.1 hstraight
    unfold isRecursive at hrecursive
    split at hrecursive
    · next rule hrule =>
        refine Or.inr ⟨rule, hrule, hrecursive, fun hbases => hnot ⟨rule, hrule, fun a ha => ?_⟩⟩
        by_contra hlead
        have hbase : a ∈ bases nt rule := mem_bases.2 ⟨ha, by simpa using hlead⟩
        rw [hbases] at hbase
        cases hbase
    · cases hrecursive

/-- A straight rule is left as it is. -/
theorem eliminate_of_straight (h : Straight g nt) : eliminate g nt = ⟨g, none, []⟩ := by
  unfold eliminate
  split
  · next rule hrule =>
      split
      · next hcond =>
          obtain ⟨hany, hbases⟩ := Bool.and_eq_true_iff.1 hcond
          obtain ⟨other, hother, hall⟩ := h (by rw [isRecursive, hrule]; exact hany)
          rw [hrule] at hother
          cases hother
          have hempty : bases nt rule = [] := by
            refine List.eq_nil_iff_forall_not_mem.2 fun a ha => ?_
            obtain ⟨hmem, hlead⟩ := mem_bases.1 ha
            rw [hall a hmem] at hlead
            cases hlead
          rw [hempty] at hbases
          cases hbases
      · rfl
  · rfl

/-- What the revision of one rule can do: nothing to a straight one, drop alternatives, or set two
rules. -/
theorem eliminate_cases (g : Grammar) (nt : Nat) :
    (Straight g nt ∧ eliminate g nt = ⟨g, none, []⟩) ∨
      (∃ rule head, g.rule? nt = some rule ∧ tails nt rule = [] ∧
        alternation (bases nt rule) = some head ∧ (eliminate g nt).grammar = g.setRule nt head ∧
        (eliminate g nt).result = none) ∨
      ∃ rule head rest, g.rule? nt = some rule ∧
        headRule (bases nt rule) g.nonterminals.size = some head ∧
        tailRule (tails nt rule) g.nonterminals.size = some rest ∧
        (eliminate g nt).grammar =
          ((g.addFresh (g.nonterminalName nt ++ "_rec")).1.setRule nt head).setRule
            g.nonterminals.size rest ∧
        (eliminate g nt).result = some g.nonterminals.size := by
  rcases straight_or g nt with hstraight | ⟨rule, hrule, hany, hbases⟩
  · exact Or.inl ⟨hstraight, eliminate_of_straight hstraight⟩
  · have heliminate : eliminate g nt = revise g nt (tails nt rule) (bases nt rule) := by
      simp only [eliminate, hrule, hany, List.isEmpty_eq_false_iff.2 hbases, Bool.not_false,
        Bool.and_self, if_true]
    rw [heliminate]
    refine Or.inr ?_
    by_cases htails : tails nt rule = []
    · obtain ⟨head, hhead⟩ := exists_alternation hbases
      refine Or.inl ⟨rule, head, hrule, htails, hhead, ?_⟩
      simp only [revise, htails, List.isEmpty_nil, if_true, hhead, and_self]
    · obtain ⟨head, hhead⟩ : ∃ head, headRule (bases nt rule) g.nonterminals.size = some head :=
        exists_alternation (by simpa using hbases)
      obtain ⟨rest, hrest⟩ : ∃ rest, tailRule (tails nt rule) g.nonterminals.size = some rest :=
        exists_alternation (by simp)
      refine Or.inr ⟨rule, head, rest, hrule, hhead, hrest, ?_⟩
      simp only [revise, addFresh_eq, List.isEmpty_eq_false_iff.2 htails, Bool.false_eq_true, if_false,
        hhead, hrest, and_self]

/-- What a new nonterminal and covered rules keep, the revision keeps. -/
theorem eliminate_invariant {Inv : Grammar → Prop} (hg : g.WellFormed) (h : Inv g)
    (hset : ∀ {g : Grammar} {nt : Nat} {rule : Rule}, Inv g → nt < g.nonterminals.size →
      g.Covers rule → Inv (g.setRule nt rule))
    (hfresh : nt < g.nonterminals.size → Inv (g.addFresh (g.nonterminalName nt ++ "_rec")).1) :
    Inv (eliminate g nt).grammar := by
  rcases eliminate_cases g nt with ⟨_, hsame⟩ | ⟨rule, head, hrule, _, hhead, hset', _⟩ |
    ⟨rule, head, rest, hrule, hhead, hrest, hset', _⟩
  · rw [hsame]
    exact h
  · rw [hset']
    exact hset h (hg.owned hrule) (covers_of_alternation hhead
      fun b hb => piecewise_of_mem_bases (piecewise_covers g) (hg.covered hrule) hb)
  · have hnt := hg.owned hrule
    have hcovers := hg.covered hrule
    obtain ⟨_, hsize, _, hgrows⟩ := g.addFresh_spec (g.nonterminalName nt ++ "_rec")
    have hnew : g.nonterminals.size < (g.addFresh (g.nonterminalName nt ++ "_rec")).1.nonterminals.size := by
      omega
    rw [hset']
    refine hset (hset (hfresh hnt) (by omega) ?_) hnew ((grows_setRule _ _ _).covers ?_)
    · refine piecewise_headRule (piecewise_covers _) hhead (fun b hb => hgrows.covers ?_) hnew
      exact piecewise_of_mem_bases (piecewise_covers g) hcovers hb
    · refine piecewise_tailRule (piecewise_covers _) hrest (fun t ht => hgrows.covers ?_) hnew
      exact piecewise_of_mem_tails (piecewise_covers g) hcovers ht

theorem wellFormed_eliminate (hg : g.WellFormed) (nt : Nat) : (eliminate g nt).grammar.WellFormed :=
  eliminate_invariant hg hg WellFormed.setRule fun _ => hg.addFresh _

theorem orderly_eliminate (hg : g.Orderly) (nt : Nat) : (eliminate g nt).grammar.Orderly :=
  eliminate_invariant hg.toWellFormed hg Orderly.setRule
    fun hnt => hg.addFresh (isIdentifier_tailName (hg.isIdentifier_name hnt))

theorem hasTail_of_rules (hg : g.WellFormed) (hrule : g.rule? nt = some rule) {head rest : Rule}
    (hhead : headRule (bases nt rule) g.nonterminals.size = some head)
    (hrest : tailRule (tails nt rule) g.nonterminals.size = some rest) (base : String) :
    HasTail g (((g.addFresh base).1.setRule nt head).setRule g.nonterminals.size rest) nt rule := by
  have hnt := hg.owned hrule
  obtain ⟨_, hsize, hrules, _⟩ := g.addFresh_spec base
  have hruleOf : ∀ m, (((g.addFresh base).1.setRule nt head).setRule g.nonterminals.size rest).rule? m =
      if m = g.nonterminals.size then some rest else if m = nt then some head else g.rule? m := by
    intro m
    rw [rule?_setRule, rule?_setRule, hrules]
  refine ⟨hsize, fun m hm hmn => ?_, ⟨head, ?_, fun S w => spells_headRule_iff hhead⟩,
    ⟨rest, ?_, fun S w => spells_tailRule_iff hrest⟩⟩
  · rw [hruleOf, if_neg (by omega), if_neg hmn]
  · rw [hruleOf, if_neg (by omega), if_pos rfl]
  · rw [hruleOf, if_pos rfl]

/-- The revision of one rule keeps every language. -/
theorem keeps_eliminate (hg : g.WellFormed) (nt : Nat) : g.Keeps (eliminate g nt).grammar := by
  rcases eliminate_cases g nt with ⟨_, hsame⟩ | ⟨rule, head, hrule, htails, hhead, hset, _⟩ |
    ⟨rule, head, rest, hrule, hhead, hrest, hset, _⟩
  · rw [hsame]
    exact Keeps.refl g
  · rw [hset]
    exact ⟨rfl, rfl, SymbolTable.Extends.refl _, fun _ => language_iff_of_dropped hrule htails hhead⟩
  · rw [hset]
    have htail := hasTail_of_rules hg hrule hhead hrest (g.nonterminalName nt ++ "_rec")
    obtain ⟨_, _, _, hgrows⟩ := g.addFresh_spec (g.nonterminalName nt ++ "_rec")
    exact ⟨rfl, rfl, hgrows.nonterminals, fun hm =>
      ⟨htail.language_of_language hg hrule hm, htail.language_of_language_old hrule⟩⟩

/-- **Eliminating left recursion keeps every language.** -/
theorem keeps_eliminateAll (hg : g.WellFormed) :
    (eliminateAll g).grammar.WellFormed ∧ g.Keeps (eliminateAll g).grammar :=
  keeps_reviseEach WellFormed
    (fun _ nt hg => ⟨wellFormed_eliminate hg nt, keeps_eliminate hg nt⟩) hg _

theorem orderly_eliminateAll (hg : g.Orderly) : (eliminateAll g).grammar.Orderly :=
  (keeps_reviseEach Orderly
    (fun _ nt hg => ⟨orderly_eliminate hg nt, keeps_eliminate hg.toWellFormed nt⟩) hg _).1

end RuleGrammar.LeftRecursion
