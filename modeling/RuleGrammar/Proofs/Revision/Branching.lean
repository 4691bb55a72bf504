import RuleGrammar.Proofs.Revision.Separation

/-!
# Factored words branch by their first letters

A rule that lists words, one sequence of letters for each, is factored into a tree of rules: what several
words share from the left is followed by a new nonterminal, and the rule of this one lists what remains of
them, the empty word included where one of them is used up.  So every rule that comes of it has
alternatives of three kinds only, which begin with different letters.  Nothing is asked of the names in
the tables here: the empty word is the only terminal that is written as it is.

* `Tree.Spelled`, `Tree.ListsWords`: sequences of letters, and alternatives of these.
* `Tree.Waiting`: rules that are still to be factored; `Tree.Branch`: alternatives of a factored rule.
* `Factoring.Branching`, `branching_placeGroup`: what holds while the groups of a waiting rule are placed.
* `Factoring.Branched`, `branched_pass`: a pass over a waiting rule.
* `Factoring.Sprouted`, `sprouted_factorWithin`, `branched_factorAll`: factoring as a whole.
-/

namespace RuleGrammar

variable {t l r e rule : Rule} {ts : List Rule}

/-! ### Trees of letters -/

namespace Tree

/-- A sequence of terminals other than the empty one, nested in any way. -/
def Spelled : Rule → Prop
  | .terminal a => a ≠ 0
  | .seq l r => l.Spelled ∧ r.Spelled
  | _ => False

/-- Alternatives of such sequences, any number of them, nested in any way. -/
def ListsWords : Rule → Prop
  | .alt l r => l.ListsWords ∧ r.ListsWords
  | t => t.Spelled

/-- Each alternative is a sequence of letters or the empty word. -/
def Waiting (rule : Rule) : Prop := ∀ t ∈ rule.alternatives, t = epsilon ∨ t.Spelled

/-- The alternatives of a factored rule: the empty word, a word, or a word and then a nonterminal. -/
inductive Branch : Rule → Prop where
  | empty : Branch epsilon
  | word {t : Rule} (h : t.Spelled) : Branch t
  | onward {t : Rule} {m : Nat} (h : t.Spelled) : Branch (.seq t (.reference m false))

theorem ListsWords.waiting (h : rule.ListsWords) : rule.Waiting := by
  induction rule with
  | alt l r ihl ihr =>
      intro t ht
      rcases List.mem_append.1 ht with ht | ht
      · exact ihl h.1 t ht
      · exact ihr h.2 t ht
  | _ =>
      intro t ht
      rw [List.mem_singleton.1 ht]
      exact Or.inr h

/-- The elements of a word are letters. -/
theorem Spelled.of_mem_sequence (h : t.Spelled) (he : e ∈ t.sequence) : e.Spelled := by
  induction t with
  | seq l r ihl ihr =>
      rcases List.mem_append.1 he with he | he
      · exact ihl h.1 he
      · exact ihr h.2 he
  | _ =>
      rw [List.mem_singleton.1 he]
      exact h

theorem spelled_of_concatenation (h : concatenation ts = some t) (hts : ∀ a ∈ ts, a.Spelled) :
    t.Spelled := by
  cases ts with
  | nil => cases h
  | cons a ts =>
      cases h
      exact Piecewise.of_foldl (fun _ _ hl hr => ⟨hl, hr⟩) (hts a (List.mem_cons_self ..))
        fun b hb => hts b (List.mem_cons_of_mem a hb)

theorem Spelled.isEpsilon (h : t.Spelled) : t.isEpsilon = false := by
  cases t with
  | terminal a =>
      cases a with
      | zero => exact absurd rfl h
      | succ a => rfl
  | _ => rfl

theorem Spelled.alternatives (h : t.Spelled) : t.alternatives = [t] := by
  cases t with
  | alt l r => cases h
  | _ => rfl

theorem Branch.alternatives (h : t.Branch) : t.alternatives = [t] := by
  cases h with
  | empty => rfl
  | word h => exact h.alternatives
  | onward h => rfl

/-- A word begins with a letter. -/
theorem Spelled.exists_letter (h : t.Spelled) : ∃ a, a ≠ 0 ∧ t.sequence.head? = some (.terminal a) := by
  induction t with
  | terminal a => exact ⟨a, h, rfl⟩
  | seq l r ihl _ =>
      obtain ⟨a, ha, hl⟩ := ihl h.1
      refine ⟨a, ha, ?_⟩
      rw [Tree.sequence, List.head?_append_of_ne_nil _ (sequence_ne_nil l)]
      exact hl
  | _ => cases h

end Tree

namespace Factoring

open Grammar RuleGrammar.Tree

variable {g g' : Grammar} {nt m : Nat} {name : String} {p p' : Progress} {a b : Alternative}
  {rest group done : List Alternative}

/-! ### Groups of words -/

/-- Every name but the empty one stands between quotes. -/
theorem eq_empty_of_terminalText (h : terminalText name = "@") : name = "" := by
  by_contra hname
  rw [terminalText, if_neg hname] at h
  have hlength := congrArg (fun s => s.toList.length) h
  simp at hlength

/-- Only the empty word is written as it is. -/
theorem ruleText_letter_ne {a : Nat} (ha : a < g.terminals.size) (hne : a ≠ 0) :
    g.ruleText (.terminal a) ≠ g.ruleText epsilon := by
  intro h
  have hempty : g.terminalName 0 = "" := by rw [terminalName, g.emptyName, Option.getD_some]
  have htext : terminalText (g.terminalName a) = "@" := by
    calc terminalText (g.terminalName a) = terminalText (g.terminalName 0) := h
      _ = "@" := by rw [hempty]; rfl
  have hname : g.terminalName a = "" := eq_empty_of_terminalText htext
  exact hne (name?_of_getD_eq ha (SymbolTable.lt_size_of_name? g.emptyName) (hname.trans hempty.symm))

/-- The alternatives of a group of several are words: the empty word shares its text with none. -/
theorem spelled_of_mem_group (hcovers : g.Covers rule) (hwaiting : rule.Waiting)
    (hgroup : GroupOf g rule (a :: b :: rest)) {c : Alternative} (hc : c ∈ a :: b :: rest) :
    ∀ e ∈ c.elements, e.Spelled := by
  obtain ⟨first, others, hlist, hhead⟩ := hgroup.shares
  obtain ⟨t, ht, rfl⟩ := hgroup.mem c hc
  rcases hwaiting t ht with rfl | hspelled
  · exfalso
    -- another alternative of the group has other texts
    obtain ⟨d, hd, hother⟩ : ∃ d ∈ a :: b :: rest, d.texts ≠ (Alternative.ofRule g epsilon).texts := by
      by_cases hsame : a.texts = (Alternative.ofRule g epsilon).texts
      · have hab : a.texts ≠ b.texts := (List.pairwise_cons.1 hgroup.distinct).1 b (List.mem_cons_self ..)
        exact ⟨b, by simp, fun hb => hab (hsame.trans hb.symm)⟩
      · exact ⟨a, by simp, hsame⟩
    obtain ⟨u, hu, rfl⟩ := hgroup.mem d hd
    rcases hwaiting u hu with rfl | hspelled
    · exact hother rfl
    · obtain ⟨k, hk, hfirst⟩ := hspelled.exists_letter
      have hcoversFirst : g.Covers (.terminal k) := covers_first (hcovers.of_mem_alternatives hu) hfirst
      have htexts := (hhead _ hd).trans (hhead _ hc).symm
      rw [head?_texts_ofRule, firstText_eq hfirst, head?_texts_ofRule] at htexts
      exact ruleText_letter_ne hcoversFirst hk (Option.some.inj htexts)
  · exact fun e he => hspelled.of_mem_sequence he

/-- What remains of a word is a word or nothing. -/
theorem remainder_eq_epsilon_or_spelled (ha : ∀ e ∈ a.elements, e.Spelled) (n : Nat) :
    remainder n a = epsilon ∨ (remainder n a).Spelled := by
  unfold remainder
  cases hcat : concatenation (a.elements.drop n) with
  | none => exact Or.inl rfl
  | some t =>
      exact Or.inr (spelled_of_concatenation hcat fun e he => ha e (List.mem_of_mem_drop he))

/-- A rule made of what remains of words is waiting. -/
theorem waiting_of_alternation {n : Nat} (hgroup : ∀ c ∈ group, ∀ e ∈ c.elements, e.Spelled)
    (h : alternation (group.map (remainder n)) = some rule) : rule.Waiting := by
  have hparts : ∀ t ∈ group.map (remainder n), t = epsilon ∨ t.Spelled := by
    intro t ht
    obtain ⟨c, hc, rfl⟩ := List.mem_map.1 ht
    exact remainder_eq_epsilon_or_spelled (hgroup c hc) n
  have hsingle : rule.alternatives = group.map (remainder n) := by
    apply alternatives_eq_of_alternation h
    intro t ht
    rcases hparts t ht with ht | ht
    · rw [ht]
      rfl
    · exact ht.alternatives
  unfold Waiting
  rw [hsingle]
  exact hparts

/-! ### Placing the groups -/

/-- The second grammar is the first one with new nonterminals, whose rules are waiting. -/
structure Stocked (g g' : Grammar) : Prop where
  wellFormed : g'.WellFormed
  grows : g.Grows g'
  kept : ∀ m < g.nonterminals.size, g'.rule? m = g.rule? m
  waiting : ∀ m rule, g.nonterminals.size ≤ m → g'.rule? m = some rule → rule.Waiting

theorem Stocked.refl (hg : g.WellFormed) : Stocked g g where
  wellFormed := hg
  grows := Grows.refl g
  kept _ _ := rfl
  waiting m rule hle hrule := by
    have hlt := hg.owned hrule
    omega

theorem Stocked.withRule (h : Stocked g g') (base : String) (hcovers : g'.Covers rule)
    (hwaiting : rule.Waiting) : Stocked g (withRule g' base rule) := by
  obtain ⟨_, hsize, _, hgrows⟩ := g'.addFresh_spec base
  have hle := h.grows.nonterminals.size_le
  refine ⟨?_, h.grows.trans (grows_withRule g' base rule), fun m hm => ?_, fun m other hm hother => ?_⟩
  · exact (h.wellFormed.addFresh base).setRule (by omega) (hgrows.covers hcovers)
  · rw [rule?_withRule, if_neg (by omega)]
    exact h.kept m hm
  · rw [rule?_withRule] at hother
    split at hother
    · cases hother
      exact hwaiting
    · exact h.waiting m other hm hother

/-- What holds when the groups of some alternatives of a waiting rule have been placed. -/
structure Branching (g : Grammar) (p : Progress) (done : List Alternative) : Prop where
  stocked : Stocked g p.grammar
  branches : ∀ t ∈ p.alternatives, t.Branch ∧ p.grammar.Covers t
  leads : ∀ t ∈ p.alternatives, ∃ e, t.sequence.head? = some e ∧ g.Covers e ∧
    ∃ a ∈ done, a.texts.head? = some (g.ruleText e)
  apart : p.alternatives.Pairwise fun t u => firstText g t ≠ firstText g u
  nonempty : done ≠ [] → p.alternatives ≠ []

theorem branching_nil (hg : g.WellFormed) : Branching g { grammar := g } [] where
  stocked := Stocked.refl hg
  branches t ht := by cases ht
  leads t ht := by cases ht
  apart := List.Pairwise.nil
  nonempty h := absurd rfl h

/-- One more alternative, for one more group. -/
theorem Branching.concat (h : Branching g p done) (hstocked : Stocked g p'.grammar)
    (hgrows : p.grammar.Grows p'.grammar) (halternatives : p'.alternatives = p.alternatives ++ [t])
    (hbranch : t.Branch) (hcovers : p'.grammar.Covers t) (hfirst : t.sequence.head? = some e)
    (he : g.Covers e) (htext : ∃ b ∈ group, b.texts.head? = some (g.ruleText e))
    (hapart : ∀ a ∈ done, ∀ b ∈ group, a.Apart b) : Branching g p' (done ++ group) := by
  obtain ⟨b, hb, htext⟩ := htext
  refine ⟨hstocked, fun u hu => ?_, fun u hu => ?_, ?_, fun _ => ?_⟩
  · rw [halternatives] at hu
    rcases List.mem_append.1 hu with hu | hu
    · exact ⟨(h.branches u hu).1, hgrows.covers (h.branches u hu).2⟩
    · rw [List.mem_singleton.1 hu]
      exact ⟨hbranch, hcovers⟩
  · rw [halternatives] at hu
    rcases List.mem_append.1 hu with hu | hu
    · obtain ⟨first, hu, hcovers, a, ha, htext⟩ := h.leads u hu
      exact ⟨first, hu, hcovers, a, List.mem_append_left _ ha, htext⟩
    · rw [List.mem_singleton.1 hu]
      exact ⟨e, hfirst, he, b, List.mem_append_right _ hb, htext⟩
  · rw [halternatives, List.pairwise_append]
    refine ⟨h.apart, List.pairwise_singleton _ t, fun u hu v hv => ?_⟩
    obtain ⟨first, hu, _, a, ha, hfirstText⟩ := h.leads u hu
    rw [List.mem_singleton.1 hv, firstText_eq hu, firstText_eq hfirst, ← hfirstText, ← htext]
    exact hapart a ha b hb
  · rw [halternatives]
    simp

/-- A group of one alternative adds that alternative. -/
theorem branching_single (h : Branching g p done) (hcovers : g.Covers rule) (hwaiting : rule.Waiting)
    (ht : t ∈ rule.alternatives) (hapart : ∀ a ∈ done, ∀ b ∈ [Alternative.ofRule g t], a.Apart b)
    (name : String) : Branching g (placeGroup name p [Alternative.ofRule g t])
      (done ++ [Alternative.ofRule g t]) := by
  have hcoversAlternative := hcovers.of_mem_alternatives ht
  obtain ⟨e, hfirst, he, htext⟩ := exists_first hcoversAlternative
  obtain ⟨u, hu⟩ := exists_concatenation (sequence_ne_nil t)
  have halternatives : (placeGroup name p [Alternative.ofRule g t]).alternatives
      = p.alternatives ++ [u] := by
    simp only [placeGroup, Alternative.ofRule, hu, Option.toList_some]
  have hsequence : u.sequence = t.sequence :=
    sequence_eq_of_concatenation hu fun a ha => sequence_of_mem_sequence ha
  have hbranch : u.Branch := by
    rcases hwaiting t ht with rfl | hspelled
    · cases hu
      exact .empty
    · exact .word (spelled_of_concatenation hu fun e he => hspelled.of_mem_sequence he)
  refine h.concat h.stocked (Grows.refl _) halternatives hbranch ?_ (by rw [hsequence]; exact hfirst)
    he ⟨_, List.mem_cons_self .., htext⟩ hapart
  apply h.stocked.grows.covers
  apply covers_of_concatenation hu
  exact fun e he => hcoversAlternative.of_mem_sequence he

/-- What several alternatives of a waiting rule share begins as they do. -/
theorem head?_sequence_shared {common : Rule} (ha : a.Of g)
    (hshare : ∀ c ∈ rest, c.texts.head? = a.texts.head?) (helements : a.elements = t.sequence)
    (hcommon : concatenation (a.elements.take (groupSharedLength (a :: rest))) = some common) :
    common.sequence.head? = t.sequence.head? := by
  have hone := one_le_groupSharedLength ha hshare
  rw [helements] at hcommon
  rw [sequence_eq_of_concatenation hcommon fun e he => sequence_of_mem_sequence (List.mem_of_mem_take he),
    List.head?_take, if_neg (by omega)]

/-- A group of several alternatives adds what they share, with a new nonterminal behind it. -/
theorem branching_mergeGroup (h : Branching g p done) (hcovers : g.Covers rule)
    (hwaiting : rule.Waiting) (hgroup : GroupOf g rule (a :: b :: rest))
    (hshare : ∀ c ∈ b :: rest, c.texts.head? = a.texts.head?)
    (hapart : ∀ c ∈ done, ∀ d ∈ a :: b :: rest, c.Apart d) (name : String) :
    Branching g (mergeGroup name p (a :: b :: rest)) (done ++ a :: b :: rest) := by
  obtain ⟨t, ht, hta⟩ := hgroup.mem a (List.mem_cons_self ..)
  have hof := hgroup.of hcovers
  have ha := hof a (List.mem_cons_self ..)
  obtain ⟨e, hfirst, he, htext⟩ := exists_first (hcovers.of_mem_alternatives ht)
  rw [hta] at htext
  have hletters : ∀ c ∈ a :: b :: rest, ∀ e ∈ c.elements, e.Spelled :=
    fun c hc => spelled_of_mem_group hcovers hwaiting hgroup hc
  obtain ⟨remaining, common, hremaining, hcommon, hgrammar, halternatives⟩ :=
    mergeGroup_spec ha hshare name p
  have hspelled : common.Spelled := spelled_of_concatenation hcommon fun e he =>
    hletters a (List.mem_cons_self ..) e (List.mem_of_mem_take he)
  have hcoversRemaining : g.Covers remaining := by
    refine covers_of_alternation hremaining fun u hu => ?_
    obtain ⟨c, hc, rfl⟩ := List.mem_map.1 hu
    exact piecewise_remainder (piecewise_covers g) (hof c hc).covered _
  have hcoversCommon : g.Covers common :=
    covers_of_concatenation hcommon fun e he => ha.covered e (List.mem_of_mem_take he)
  have hgrows := grows_withRule p.grammar (name ++ "_fac") remaining
  have hsize := size_withRule p.grammar (name ++ "_fac") remaining
  have hstocked := h.stocked.withRule (name ++ "_fac") (h.stocked.grows.covers hcoversRemaining)
    (waiting_of_alternation hletters hremaining)
  rw [← hgrammar] at hgrows hsize hstocked
  -- what the group shares is no empty word, so the new nonterminal stands behind it
  rw [join_reference, hspelled.isEpsilon, if_neg Bool.false_ne_true] at halternatives
  refine h.concat hstocked hgrows halternatives (.onward hspelled) ⟨?_, ?_⟩ ?_ he
    ⟨a, List.mem_cons_self .., htext⟩ hapart
  · exact hgrows.covers (h.stocked.grows.covers hcoversCommon)
  · show p.grammar.nonterminals.size < (mergeGroup name p (a :: b :: rest)).grammar.nonterminals.size
    omega
  · rw [Tree.sequence, List.head?_append_of_ne_nil _ (sequence_ne_nil common),
      head?_sequence_shared ha hshare (by rw [← hta]; rfl) hcommon]
    exact hfirst

/-- A group that is placed adds a branch with a first text of its own. -/
theorem branching_placeGroup (h : Branching g p done) (hcovers : g.Covers rule) (hwaiting : rule.Waiting)
    (hgroup : GroupOf g rule group) (hapart : ∀ a ∈ done, ∀ b ∈ group, a.Apart b) (name : String) :
    Branching g (placeGroup name p group) (done ++ group) := by
  obtain ⟨a, rest, rfl, hhead⟩ := hgroup.shares
  cases rest with
  | nil =>
      obtain ⟨t, ht, rfl⟩ := hgroup.mem a (List.mem_cons_self ..)
      exact branching_single h hcovers hwaiting ht hapart name
  | cons b rest =>
      exact branching_mergeGroup h hcovers hwaiting hgroup
        (fun c hc => hhead c (List.mem_cons_of_mem a hc)) hapart name

theorem branching_foldl (hcovers : g.Covers rule) (hwaiting : rule.Waiting) (name : String) :
    ∀ (gs : List (List Alternative)) {p : Progress} {done : List Alternative}, Branching g p done →
      (∀ group ∈ gs, GroupOf g rule group) →
      gs.Pairwise (fun l r => ∀ x ∈ l, ∀ y ∈ r, x.Apart y) →
      (∀ a ∈ done, ∀ group ∈ gs, ∀ b ∈ group, a.Apart b) →
      Branching g (gs.foldl (placeGroup name) p) (done ++ gs.flatten) := by
  intro gs
  induction gs with
  | nil =>
      intro p done h _ _ _
      rw [List.flatten_nil, List.append_nil]
      exact h
  | cons group gs ih =>
      intro p done h hgroups hapart hdone
      obtain ⟨hfirst, hothers⟩ := List.pairwise_cons.1 hapart
      have h' := branching_placeGroup h hcovers hwaiting (hgroups group (List.mem_cons_self ..))
        (fun a ha => hdone a ha group (List.mem_cons_self ..)) name
      rw [List.flatten_cons, ← List.append_assoc]
      refine ih h' (fun other hmem => hgroups other (List.mem_cons_of_mem _ hmem)) hothers ?_
      intro a ha other hother b hb
      rcases List.mem_append.1 ha with ha | ha
      · exact hdone a ha other (List.mem_cons_of_mem _ hother) b hb
      · exact hfirst other hother a ha b hb

/-! ### Passes -/

/-- The alternatives of the rule of a nonterminal, if it has one, are branches that begin with different
texts. -/
structure Branched (g : Grammar) (nt : Nat) : Prop where
  separated : Separated g nt
  branches : ∀ rule, g.rule? nt = some rule → ∀ t ∈ rule.alternatives, t.Branch

theorem Branched.of_grows (h : Branched g nt) (hg : g.WellFormed) (hgrows : g.Grows g')
    (hrule : g'.rule? nt = g.rule? nt) : Branched g' nt := by
  refine ⟨h.separated.of_grows hg hgrows hrule, fun rule hsome => ?_⟩
  rw [hrule] at hsome
  exact h.branches rule hsome

theorem branched_of_no_rule (h : g.rule? nt = none) : Branched g nt := by
  refine ⟨separated_of_no_rule h, fun rule hrule => ?_⟩
  rw [h] at hrule
  cases hrule

theorem branch_of_waiting (h : rule.Waiting) (ht : t ∈ rule.alternatives) : t.Branch := by
  rcases h t ht with rfl | hspelled
  · exact .empty
  · exact .word hspelled

/-- The alternatives that were placed make a rule of branches. -/
theorem Branching.branched_setRule {revised : Rule} (h : Branching g p done)
    (hrevised : alternation p.alternatives = some revised) (nt : Nat) :
    Branched (p.grammar.setRule nt revised) nt := by
  have hgrows : g.Grows (p.grammar.setRule nt revised) := h.stocked.grows.trans (grows_setRule _ _ _)
  have halternatives : revised.alternatives = p.alternatives :=
    alternatives_eq_of_alternation hrevised fun t ht => (h.branches t ht).1.alternatives
  have hrule : (p.grammar.setRule nt revised).rule? nt = some revised := by
    rw [rule?_setRule, if_pos rfl]
  refine ⟨fun rule hsome => ?_, fun rule hsome => ?_⟩
  · cases hrule.symm.trans hsome
    rw [halternatives]
    refine h.apart.imp_of_mem fun {t u} ht hu hne => ?_
    obtain ⟨first, ht, hfirst, _⟩ := h.leads t ht
    obtain ⟨second, hu, hsecond, _⟩ := h.leads u hu
    rw [firstText_eq ht, firstText_eq hu] at hne ⊢
    rw [hgrows.ruleText_eq hfirst, hgrows.ruleText_eq hsecond]
    exact hne
  · cases hrule.symm.trans hsome
    rw [halternatives]
    exact fun t ht => (h.branches t ht).1

/-- What a pass over a waiting rule leaves behind. -/
structure PassedOver (g : Grammar) (nt : Nat) (r : Revised (List Nat)) : Prop where
  wellFormed : r.grammar.WellFormed
  grows : g.Grows r.grammar
  kept : ∀ m < g.nonterminals.size, m ≠ nt → r.grammar.rule? m = g.rule? m
  branched : Branched r.grammar nt
  fresh : r.result = List.range' g.nonterminals.size r.result.length
  size : r.grammar.nonterminals.size = g.nonterminals.size + r.result.length
  smaller : ∀ m ∈ r.result, ruleSize r.grammar m < ruleSize g nt
  waiting : ∀ m ∈ r.result, ∀ rule, r.grammar.rule? m = some rule → rule.Waiting

/-- **A pass over a waiting rule makes branches of it.** -/
theorem passedOver_pass (hg : g.WellFormed) (hwaiting : ∀ rule, g.rule? nt = some rule → rule.Waiting) :
    PassedOver g nt (pass g nt) := by
  rcases pass_cases g nt with ⟨hseparated, hsame⟩ | ⟨rule, p, hrule, hp, hgrammar, hresult⟩
  · rw [hsame]
    exact ⟨hg, Grows.refl g, fun _ _ _ => rfl,
      ⟨hseparated, fun rule hrule t ht => branch_of_waiting (hwaiting rule hrule) ht⟩, rfl, rfl,
      fun m hm => (by cases hm), fun m hm => (by cases hm)⟩
  · have hcovers := hg.covered hrule
    have hnt := hg.owned hrule
    have hbranching := branching_foldl hcovers (hwaiting rule hrule) (g.nonterminalName nt) _
      (branching_nil hg) (fun group hgroup => groupOf_of_mem_groups hgroup) (apart_groups _)
      (fun a ha => (by cases ha))
    have hcounted := counted_groups hcovers (g.nonterminalName nt)
    rw [← hp] at hbranching hcounted
    obtain ⟨revised, hrevised⟩ := exists_alternation (hbranching.nonempty (flatten_groups_ne_nil g rule))
    have hset : (pass g nt).grammar = p.grammar.setRule nt revised := by
      rw [hgrammar, setAlternatives, hrevised]
    have hstocked := hbranching.stocked
    have hle := hstocked.grows.nonterminals.size_le
    have hkept : ∀ m, m ≠ nt → (pass g nt).grammar.rule? m = p.grammar.rule? m := by
      intro m hne
      rw [hset, rule?_setRule, if_neg hne]
    have hnew : ∀ m ∈ (pass g nt).result, g.nonterminals.size ≤ m ∧ m ≠ nt := by
      intro m hm
      rw [hresult, hcounted.fresh, List.mem_range'_1] at hm
      omega
    refine ⟨?_, ?_, fun m hm hne => ?_, ?_, ?_, ?_, fun m hm => ?_, fun m hm other hother => ?_⟩
    · rw [hset]
      exact hstocked.wellFormed.setRule (by omega)
        (covers_of_alternation hrevised fun t ht => (hbranching.branches t ht).2)
    · rw [hset]
      exact hstocked.grows.trans (grows_setRule _ _ _)
    · rw [hkept m hne]
      exact hstocked.kept m hm
    · rw [hset]
      exact hbranching.branched_setRule hrevised nt
    · rw [hresult]
      exact hcounted.fresh
    · rw [hresult, hset]
      exact hcounted.size
    · rw [ruleSize_congr (hkept m (hnew m hm).2), ruleSize_eq hrule]
      exact hcounted.smaller m (hresult ▸ hm)
    · rw [hkept m (hnew m hm).2] at hother
      exact hstocked.waiting m other (hnew m hm).1 hother

/-! ### Whole rules -/

/-- What holds when some nonterminals with waiting rules have been factored, with all that came of
them. -/
structure Sprouted (g : Grammar) (nts : List Nat) (r : Revised (List Nat)) : Prop where
  wellFormed : r.grammar.WellFormed
  grows : g.Grows r.grammar
  kept : ∀ m < g.nonterminals.size, ¬ m ∈ nts → r.grammar.rule? m = g.rule? m
  branched : ∀ m, m ∈ nts ∨ g.nonterminals.size ≤ m → Branched r.grammar m

theorem sprouted_nil (hg : g.WellFormed) : Sprouted g [] ⟨g, [], []⟩ where
  wellFormed := hg
  grows := Grows.refl g
  kept _ _ _ := rfl
  branched m hm := by
    rcases hm with hm | hm
    · cases hm
    · apply branched_of_no_rule
      cases hrule : g.rule? m with
      | none => rfl
      | some rule =>
          have hlt := hg.owned hrule
          omega

/-- One more nonterminal. -/
theorem Sprouted.andThen {finished : List Nat} {r s : Revised (List Nat)} (h : Sprouted g finished r)
    (h' : Sprouted r.grammar [nt] s) :
    Sprouted g (finished ++ [nt]) ⟨s.grammar, r.result ++ s.result, r.journal ++ s.journal⟩ where
  wellFormed := h'.wellFormed
  grows := h.grows.trans h'.grows
  kept m hm hnot := by
    have hle := h.grows.nonterminals.size_le
    rw [List.mem_append, not_or] at hnot
    rw [h'.kept m (by omega) hnot.2, h.kept m hm hnot.1]
  branched m hm := by
    by_cases hnow : m ∈ [nt] ∨ r.grammar.nonterminals.size ≤ m
    · exact h'.branched m hnow
    · obtain ⟨hne, hlt⟩ := not_or.1 hnow
      have hbefore : Branched r.grammar m := by
        refine h.branched m (hm.imp_left fun hmem => ?_)
        exact (List.mem_append.1 hmem).resolve_right hne
      exact hbefore.of_grows h.wellFormed h'.grows (h'.kept m (by omega) hne)

/-- A pass over the rule of a nonterminal, and then all that came of it. -/
theorem PassedOver.sprouted {r s : Revised (List Nat)} (h : PassedOver g nt r)
    (h' : Sprouted r.grammar r.result.reverse s) :
    Sprouted g [nt] ⟨s.grammar, r.result ++ s.result, r.journal ++ s.journal⟩ := by
  have hfresh : ∀ m, m ∈ r.result ↔
      g.nonterminals.size ≤ m ∧ m < g.nonterminals.size + r.result.length := by
    intro m
    rw [h.fresh, List.mem_range'_1, List.length_range']
  have hsize := h.size
  refine ⟨h'.wellFormed, h.grows.trans h'.grows, fun m hm hnot => ?_, fun m hm => ?_⟩
  · rw [h'.kept m (by omega), h.kept m hm fun hmn => hnot (List.mem_singleton.2 hmn)]
    rw [List.mem_reverse, hfresh]
    omega
  · by_cases hlater : m ∈ r.result.reverse ∨ r.grammar.nonterminals.size ≤ m
    · exact h'.branched m hlater
    · -- all that is new was put on the list, so this is the nonterminal itself
      obtain ⟨hnot, hlt⟩ := not_or.1 hlater
      have hown : m = nt := by
        refine List.mem_singleton.1 (hm.resolve_right fun hle => hnot ?_)
        rw [List.mem_reverse, hfresh]
        omega
      rw [hown] at hnot hlt ⊢
      exact h.branched.of_grows h.wellFormed h'.grows (h'.kept nt (by omega) hnot)

/-- **A waiting rule sprouts rules of branches**, in no more generations than it is large. -/
theorem sprouted_factorWithin : ∀ (depth : Nat) {g : Grammar} (nt : Nat), g.WellFormed →
    (∀ rule, g.rule? nt = some rule → rule.Waiting) → ruleSize g nt ≤ depth →
    Sprouted g [nt] (factorWithin depth g nt) := by
  intro depth
  induction depth with
  | zero =>
      intro g nt hg _ hsize
      have hnone : g.rule? nt = none := by
        cases hrule : g.rule? nt with
        | none => rfl
        | some rule =>
            have hpos := Tree.size_pos rule
            rw [ruleSize_eq hrule] at hsize
            omega
      refine ⟨hg, Grows.refl g, fun _ _ _ => rfl, fun m hm => ?_⟩
      rcases hm with hm | hm
      · rw [List.mem_singleton.1 hm]
        exact branched_of_no_rule hnone
      · exact (sprouted_nil hg).branched m (Or.inr hm)
  | succ depth ih =>
      intro g nt hg hwaiting hsize
      have hpass := passedOver_pass hg hwaiting
      have hnodup : (pass g nt).result.Nodup := by
        rw [hpass.fresh]
        exact List.nodup_range'
      rw [factorWithin, passes_eq_pass_of_separated hpass.branched.separated (by decide)]
      refine hpass.sprouted (reviseEach_induction (Q := Sprouted _) (sprouted_nil hpass.wellFormed) ?_)
      intro finished m r hinitial h
      have hmem : m ∈ (pass g nt).result := List.mem_reverse.1 (mem_of_initial hinitial)
      have hlt : m < (pass g nt).grammar.nonterminals.size := by
        rw [hpass.fresh, List.mem_range'_1] at hmem
        rw [hpass.size]
        exact hmem.2
      -- its rule is as the pass has left it
      have hsame := h.kept m hlt (not_mem_of_initial hinitial (List.nodup_reverse.2 hnodup))
      refine h.andThen (ih m h.wellFormed (fun rule hrule => ?_) ?_)
      · rw [hsame] at hrule
        exact hpass.waiting m hmem rule hrule
      · have hsmaller := hpass.smaller m hmem
        rw [ruleSize_congr hsame]
        omega

/-- **Factoring makes branches of all rules that list words.** -/
theorem branched_factorAll (hg : g.WellFormed)
    (hwords : ∀ nt rule, g.rule? nt = some rule → rule.ListsWords) :
    (factorAll g).grammar.WellFormed ∧ ∀ nt, Branched (factorAll g).grammar nt := by
  have hall : Sprouted g g.nonterminals.ids (factorAll g) := by
    refine reviseEach_induction (Q := Sprouted g) (sprouted_nil hg) ?_
    intro finished nt r hinitial h
    refine h.andThen (sprouted_factorWithin _ nt h.wellFormed (fun rule hrule => ?_) (Nat.le_refl _))
    have hlt : nt < g.nonterminals.size := List.mem_range.1 (mem_of_initial hinitial)
    rw [h.kept nt hlt (not_mem_of_initial hinitial List.nodup_range)] at hrule
    exact (hwords nt rule hrule).waiting
  refine ⟨hall.wellFormed, fun nt => hall.branched nt ?_⟩
  rw [SymbolTable.ids, List.mem_range]
  exact Nat.lt_or_ge nt _

end Factoring

end RuleGrammar
