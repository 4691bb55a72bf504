import Mathlib.Algebra.Order.BigOperators.Group.List
import RuleGrammar.Proofs.Revision.Factoring

/-!
# A pass separates the alternatives of its rule

After a pass, the alternatives of the rule begin with different texts.  An alternative of the revised rule
begins with the text that its group shares, and different groups share different texts; only where a
group shares nothing but the empty word, its alternative is the new nonterminal itself, and no other tree
has the text of that one.  So a second pass finds nothing to do.

The rule of a new nonterminal is smaller than the rule that the pass was made for.  Each alternative of a
group loses at least one element, and where nothing remains of it, the empty word takes the place; but that
happens to at most one alternative of a group, since no two have the same texts.

* `Grammar.eq_reference_of_ruleText`: only a reference has the text of a reference.
* `Alternative.weight`, `size_remaining_lt`: what remains of a group is smaller than the group.
* `Counted`, `counted_placeGroup`: the new nonterminals while the groups are placed.
* `Parted`, `parted_placeGroup`: the first texts while the groups are placed.
* `pass_spec`: what a pass leaves behind; `pass_pass`, `passes_eq_pass`: one pass is enough.
-/

namespace RuleGrammar

open RuleGrammar.Tree

/-! ### Texts of references -/

namespace Grammar

variable {g g' : Grammar} {t : Rule} {m : Nat} {opened : Bool}

theorem Grows.ruleText_eq (h : g.Grows g') (ht : g.Covers t) : g'.ruleText t = g.ruleText t :=
  congrArg Tree.text (h.named_eq ht)

/-- Only a reference has the text of a reference. -/
theorem eq_reference_of_ruleText (hg : g.Readable) (ht : g.Covers t) (hm : m < g.nonterminals.size)
    (h : g.ruleText t = g.ruleText (.reference m opened)) : t = .reference m opened := by
  have hreference : g.Covers (.reference m opened) := hm
  have hnested : (g.named t).leftNested = g.named (.reference m opened) :=
    leftNested_eq_of_text_eq (legible_named hg ht) (legible_named hg hreference) h
  have htight : (g.named t).tightness = 3 := by
    rw [← tightness_leftNested, hnested]
    rfl
  have hleaf : (g.named t).leftNested = g.named t := by
    cases t with
    | seq l r | alt l r | iter l r => cases htight
    | _ => rfl
  exact named_injective ht hreference (hleaf.symm.trans hnested)

/-- A tree over smaller tables does not have the text of a new nonterminal. -/
theorem ruleText_ne_reference (hg' : g'.Readable) (hgrows : g.Grows g') (ht : g.Covers t)
    (hnew : g.nonterminals.size ≤ m) (hm : m < g'.nonterminals.size) :
    g'.ruleText t ≠ g'.ruleText (.reference m opened) := by
  intro hsame
  rw [eq_reference_of_ruleText hg' (hgrows.covers ht) hm hsame] at ht
  have hold : m < g.nonterminals.size := ht
  omega

end Grammar

namespace Factoring

open Grammar

variable {g : Grammar} {nt : Nat} {rule t e : Rule} {name : String} {bound : Nat} {p p' : Progress}
  {a : Alternative} {rest group done : List Alternative}

/-! ### What remains of a group -/

def Alternative.weight (a : Alternative) : Nat := (a.elements.map Tree.size).sum

theorem weight_ofRule (g : Grammar) (t : Rule) : (Alternative.ofRule g t).weight = t.size :=
  (size_eq_sum_sequence t).symm

theorem sum_size_pos {ts : List Rule} (h : ts ≠ []) : 0 < (ts.map Tree.size).sum := by
  cases ts with
  | nil => exact absurd rfl h
  | cons t ts =>
      have hpos := size_pos t
      rw [List.map_cons, List.sum_cons]
      omega

theorem size_remainder_le (ha : a.elements ≠ []) (n : Nat) : (remainder n a).size ≤ a.weight := by
  unfold remainder
  cases hcat : concatenation (a.elements.drop n) with
  | none => exact sum_size_pos ha
  | some t =>
      show t.size ≤ a.weight
      rw [size_of_concatenation hcat]
      exact ((List.drop_sublist n a.elements).map Tree.size).sum_le_sum fun _ _ => Nat.zero_le _

theorem size_remainder_lt {n : Nat} (hn : 1 ≤ n) (hdrop : a.elements.drop n ≠ []) :
    (remainder n a).size < a.weight := by
  obtain ⟨t, hcat⟩ := exists_concatenation hdrop
  have htake : a.elements.take n ≠ [] := by
    intro h
    rcases List.take_eq_nil_iff.1 h with h | h
    · omega
    · rw [h, List.drop_nil] at hdrop
      exact hdrop rfl
  have hpos := sum_size_pos htake
  have hsplit : a.weight =
      ((a.elements.take n).map Tree.size).sum + ((a.elements.drop n).map Tree.size).sum := by
    rw [← List.sum_append, ← List.map_append, List.take_append_drop]
    rfl
  rw [remainder, hcat]
  show t.size < a.weight
  rw [size_of_concatenation hcat]
  omega

/-- What remains of a group of several alternatives is smaller than these together. -/
theorem size_remaining_lt (hof : ∀ b ∈ a :: rest, b.Of g)
    (hshare : ∀ b ∈ rest, b.texts.head? = a.texts.head?) (hrest : rest ≠ [])
    (hdistinct : (a :: rest).Pairwise fun b c => b.texts ≠ c.texts) {remaining : Rule}
    (h : alternation ((a :: rest).map (remainder (groupSharedLength (a :: rest)))) = some remaining) :
    remaining.size < ((a :: rest).map Alternative.weight).sum := by
  have hone := one_le_groupSharedLength (hof a (List.mem_cons_self ..)) hshare
  obtain ⟨b, others, rfl⟩ := List.exists_cons_of_ne_nil hrest
  have hb : b ∈ a :: b :: others := List.mem_cons_of_mem a (List.mem_cons_self ..)
  rw [size_of_alternation h, List.map_map]
  refine List.sum_lt_sum _ _ (fun c hc => size_remainder_le (hof c hc).nonempty _) ?_
  -- of the first two alternatives, one goes on behind what the group shares
  by_contra hnone
  have hused : ∀ c ∈ a :: b :: others,
      c.texts.take (groupSharedLength (a :: b :: others)) = c.texts := by
    intro c hc
    have hdrop : c.elements.drop (groupSharedLength (a :: b :: others)) = [] := by
      by_contra hdrop
      exact hnone ⟨c, hc, size_remainder_lt hone hdrop⟩
    refine List.take_of_length_le ?_
    rw [(hof c hc).texts, List.length_map]
    exact List.drop_eq_nil_iff.1 hdrop
  have hsame : a.texts = b.texts := by
    calc a.texts = a.texts.take (groupSharedLength (a :: b :: others)) :=
          (hused a (List.mem_cons_self ..)).symm
      _ = b.texts.take (groupSharedLength (a :: b :: others)) := take_groupSharedLength_eq hb
      _ = b.texts := hused b hb
  exact (List.pairwise_cons.1 hdistinct).1 b (List.mem_cons_self ..) hsame

/-! ### The groups of a rule -/

structure GroupOf (g : Grammar) (rule : Rule) (group : List Alternative) : Prop where
  shares : SharesHead group
  mem : ∀ b ∈ group, ∃ t ∈ rule.alternatives, Alternative.ofRule g t = b
  distinct : group.Pairwise fun a b => a.texts ≠ b.texts
  weight : (group.map Alternative.weight).sum ≤ rule.size

theorem groupOf_of_mem_groups
    (h : group ∈ groups (distinct (rule.alternatives.map (Alternative.ofRule g)))) :
    GroupOf g rule group := by
  obtain ⟨hshare, hmem⟩ := sharesHead_of_mem_groups h
  have hperm := (groups_spec (distinct (rule.alternatives.map (Alternative.ofRule g)))).2
  have hgroup := List.sublist_flatten_of_mem h
  refine ⟨hshare, fun b hb => exists_of_mem_distinct (hmem b hb), ?_, ?_⟩
  · exact ((hperm.pairwise_iff fun h => h.symm).2 (pairwise_distinct _)).sublist hgroup
  · have hkept := (distinct_spec (rule.alternatives.map (Alternative.ofRule g))).1
    calc (group.map Alternative.weight).sum
        ≤ ((groups (distinct (rule.alternatives.map (Alternative.ofRule g)))).flatten.map
            Alternative.weight).sum :=
          (hgroup.map _).sum_le_sum fun _ _ => Nat.zero_le _
      _ = ((distinct (rule.alternatives.map (Alternative.ofRule g))).map Alternative.weight).sum :=
          (hperm.map _).sum_eq
      _ ≤ ((rule.alternatives.map (Alternative.ofRule g)).map Alternative.weight).sum :=
          (hkept.map _).sum_le_sum fun _ _ => Nat.zero_le _
      _ = rule.size := by
          rw [List.map_map, size_eq_sum_alternatives]
          exact congrArg List.sum (List.map_congr_left fun t _ => weight_ofRule g t)

theorem GroupOf.of (h : GroupOf g rule group) (hrule : g.Covers rule) : ∀ b ∈ group, b.Of g := by
  intro b hb
  obtain ⟨t, ht, rfl⟩ := h.mem b hb
  exact Alternative.of_ofRule (hrule.of_mem_alternatives ht)

/-! ### The new nonterminals -/

theorem ruleSize_eq (h : g.rule? nt = some rule) : ruleSize g nt = rule.size := by
  rw [ruleSize, h]

theorem ruleSize_congr {g' : Grammar} (h : g'.rule? nt = g.rule? nt) : ruleSize g' nt = ruleSize g nt := by
  unfold ruleSize
  rw [h]

theorem ruleSize_withRule (g : Grammar) (base : String) (rule : Rule) (m : Nat) :
    ruleSize (withRule g base rule) m =
      if m = g.nonterminals.size then rule.size else ruleSize g m := by
  unfold ruleSize
  rw [rule?_withRule]
  by_cases hm : m = g.nonterminals.size
  · rw [if_pos hm, if_pos hm]
  · rw [if_neg hm, if_neg hm]

/-- The new nonterminals are those that were found, in order, and their rules are small. -/
structure Counted (g : Grammar) (bound : Nat) (p : Progress) : Prop where
  fresh : p.fresh = List.range' g.nonterminals.size p.fresh.length
  size : p.grammar.nonterminals.size = g.nonterminals.size + p.fresh.length
  smaller : ∀ m ∈ p.fresh, ruleSize p.grammar m < bound

/-- A group that is placed makes no new nonterminal, or one with a rule that is smaller than the rule. -/
theorem counted_placeGroup (h : Counted g rule.size p) (hrule : g.Covers rule)
    (hgroup : GroupOf g rule group) (name : String) :
    Counted g rule.size (placeGroup name p group) := by
  obtain ⟨a, rest, rfl, hhead⟩ := hgroup.shares
  have hof := hgroup.of hrule
  cases rest with
  | nil => exact ⟨h.fresh, h.size, h.smaller⟩
  | cons b rest =>
      have hshare : ∀ c ∈ b :: rest, c.texts.head? = a.texts.head? :=
        fun c hc => hhead c (List.mem_cons_of_mem a hc)
      obtain ⟨remaining, common, hremaining, _, hgrammar, _⟩ :=
        mergeGroup_spec (hof a (List.mem_cons_self ..)) hshare name p
      have hnew : (mergeGroup name p (a :: b :: rest)).fresh =
          p.fresh ++ [p.grammar.nonterminals.size] := by
        simp only [mergeGroup, addFresh_eq]
      have hsmall := size_remaining_lt hof hshare (List.cons_ne_nil b rest) hgroup.distinct hremaining
      have hweight := hgroup.weight
      have hnumbers : p.fresh ++ [p.grammar.nonterminals.size] =
          List.range' g.nonterminals.size (p.fresh.length + 1) := by
        rw [List.range'_1_concat, ← h.fresh, h.size]
      rw [show placeGroup name p (a :: b :: rest) = mergeGroup name p (a :: b :: rest) from rfl]
      refine ⟨?_, ?_, ?_⟩
      · rw [hnew, List.length_append, List.length_singleton]
        exact hnumbers
      · rw [hnew, hgrammar, size_withRule, h.size, List.length_append, List.length_singleton, Nat.add_assoc]
      · intro m hm
        rw [hnew] at hm
        rw [hgrammar]
        rcases List.mem_append.1 hm with hm | hm
        · have hlt : m < p.grammar.nonterminals.size := by
            rw [h.fresh, List.mem_range'_1] at hm
            rw [h.size]
            exact hm.2
          rw [ruleSize_withRule, if_neg (by omega)]
          exact h.smaller m hm
        · rw [List.mem_singleton.1 hm, ruleSize_withRule, if_pos rfl]
          omega

/-- The new nonterminals when all groups of a rule have been placed. -/
theorem counted_groups (hrule : g.Covers rule) (name : String) : Counted g rule.size
    ((groups (distinct (rule.alternatives.map (Alternative.ofRule g)))).foldl (placeGroup name)
      { grammar := g }) := by
  refine List.foldlRecOn _ _ ⟨rfl, rfl, fun m hm => (by cases hm)⟩ fun p h group hgroup => ?_
  exact counted_placeGroup h hrule (groupOf_of_mem_groups hgroup) name

/-! ### The first texts -/

/-- What an alternative of the revised rule may begin with: an element over the old tables with the first
text of an alternative, or a new nonterminal. -/
def Leads (g : Grammar) (done : List Alternative) (e : Rule) : Prop :=
  (g.Covers e ∧ ∃ a ∈ done, a.texts.head? = some (g.ruleText e)) ∨
    ∃ m, g.nonterminals.size ≤ m ∧ e = .reference m false

theorem Leads.mono {done' : List Alternative} (h : Leads g done e) (hsub : ∀ a ∈ done, a ∈ done') :
    Leads g done' e := by
  rcases h with ⟨hcovers, a, ha, htext⟩ | hnew
  · exact Or.inl ⟨hcovers, a, hsub a ha, htext⟩
  · exact Or.inr hnew

/-- The alternatives of the revised rule begin with different texts. -/
structure Parted (g : Grammar) (p : Progress) (done : List Alternative) : Prop where
  single : ∀ t ∈ p.alternatives, t.alternatives = [t]
  leads : ∀ t ∈ p.alternatives, ∃ e, t.sequence.head? = some e ∧ Leads g done e
  apart : p.alternatives.Pairwise fun t u => firstText p.grammar t ≠ firstText p.grammar u

theorem firstText_eq (h : t.sequence.head? = some e) : firstText g t = some (g.ruleText e) := by
  rw [firstText, h]
  rfl

theorem covers_first (ht : g.Covers t) (h : t.sequence.head? = some e) : g.Covers e :=
  ht.of_mem_sequence (List.mem_of_head? h)

theorem firstText_of_grows {g' : Grammar} (hgrows : g.Grows g') (ht : g.Covers t) :
    firstText g' t = firstText g t := by
  unfold firstText
  cases h : t.sequence.head? with
  | none => rfl
  | some e => exact congrArg some (hgrows.ruleText_eq (covers_first ht h))

/-- One more alternative, for one more group. -/
theorem Parted.concat (h : Parted g p done) (hplaced : Placed g p done)
    (hplaced' : Placed g p' (done ++ group)) (hgrows : p.grammar.Grows p'.grammar)
    (hapart : ∀ a ∈ done, ∀ b ∈ group, a.Apart b)
    (halternatives : p'.alternatives = p.alternatives ++ [t]) (hsingle : t.alternatives = [t])
    (hfirst : t.sequence.head? = some e)
    (hleads : (g.Covers e ∧ ∃ b ∈ group, b.texts.head? = some (g.ruleText e)) ∨
      e = .reference p.grammar.nonterminals.size false) : Parted g p' (done ++ group) := by
  have hold := hplaced.defines.grows
  refine ⟨fun u hu => ?_, fun u hu => ?_, ?_⟩
  · rw [halternatives] at hu
    rcases List.mem_append.1 hu with hu | hu
    · exact h.single u hu
    · rw [List.mem_singleton.1 hu]
      exact hsingle
  · rw [halternatives] at hu
    rcases List.mem_append.1 hu with hu | hu
    · obtain ⟨first, hu, hlead⟩ := h.leads u hu
      exact ⟨first, hu, hlead.mono fun a ha => List.mem_append_left _ ha⟩
    · rw [List.mem_singleton.1 hu]
      refine ⟨e, hfirst, ?_⟩
      rcases hleads with ⟨hcovers, b, hb, htext⟩ | hnew
      · exact Or.inl ⟨hcovers, b, List.mem_append_right _ hb, htext⟩
      · exact Or.inr ⟨_, hold.nonterminals.size_le, hnew⟩
  · have hcovers : p'.grammar.Covers e :=
      covers_first (hplaced'.covered t (by rw [halternatives]; simp)) hfirst
    have hreadable := hplaced'.orderly.readable
    rw [halternatives, List.pairwise_append]
    refine ⟨?_, List.pairwise_singleton _ t, fun u hu v hv => ?_⟩
    · refine h.apart.imp_of_mem fun {u v} hu hv hne => ?_
      rw [firstText_of_grows hgrows (hplaced.covered u hu),
        firstText_of_grows hgrows (hplaced.covered v hv)]
      exact hne
    · obtain ⟨first, hu', hlead⟩ := h.leads u hu
      have hcoversFirst := covers_first (hplaced.covered u hu) hu'
      rw [List.mem_singleton.1 hv, firstText_eq hu', firstText_eq hfirst]
      refine fun hsame => absurd (Option.some.inj hsame) ?_
      rcases hleads with ⟨hcoversOld, b, hb, htext⟩ | rfl
      · rcases hlead with ⟨hcoversFirstOld, a, ha, htextFirst⟩ | ⟨m, hle, rfl⟩
        · -- both texts are those of groups
          rw [(hold.trans hgrows).ruleText_eq hcoversFirstOld, (hold.trans hgrows).ruleText_eq hcoversOld]
          exact fun hsame => hapart a ha b hb (htextFirst.trans ((congrArg some hsame).trans htext.symm))
        · exact (ruleText_ne_reference hreadable (hold.trans hgrows) hcoversOld hle
            (hgrows.covers hcoversFirst)).symm
      · exact ruleText_ne_reference hreadable hgrows hcoversFirst (Nat.le_refl _) hcovers

/-- An alternative of a rule begins with an element that has the first of its texts. -/
theorem exists_first (ht : g.Covers t) : ∃ e, t.sequence.head? = some e ∧ g.Covers e ∧
    (Alternative.ofRule g t).texts.head? = some (g.ruleText e) := by
  obtain ⟨e, es, hes⟩ := List.exists_cons_of_ne_nil (sequence_ne_nil t)
  have hfirst : t.sequence.head? = some e := by rw [hes, List.head?_cons]
  exact ⟨e, hfirst, covers_first ht hfirst, (head?_texts_ofRule g t).trans (firstText_eq hfirst)⟩

/-- What a group shares, followed by a nonterminal, begins as before, or it is that nonterminal. -/
theorem head?_sequence_join {n : Nat} (hn : 1 ≤ n) {common : Rule} (m : Nat)
    (h : concatenation (t.sequence.take n) = some common) :
    (common.join (.reference m false)).sequence.head? = t.sequence.head? ∨
      (common.join (.reference m false)).sequence.head? = some (.reference m false) := by
  rw [join_reference]
  split
  · exact Or.inr rfl
  · left
    have hcommon : common.sequence = t.sequence.take n :=
      sequence_eq_of_concatenation h fun a ha => sequence_of_mem_sequence (List.mem_of_mem_take ha)
    rw [Tree.sequence, List.head?_append_of_ne_nil _ (sequence_ne_nil common), hcommon, List.head?_take,
      if_neg (by omega)]

/-- A group that is placed adds an alternative with a first text of its own. -/
theorem parted_placeGroup (h : Parted g p done) (hplaced : Placed g p done)
    (hplaced' : Placed g (placeGroup name p group) (done ++ group)) (hrule : g.Covers rule)
    (hgroup : GroupOf g rule group) (hapart : ∀ a ∈ done, ∀ b ∈ group, a.Apart b) :
    Parted g (placeGroup name p group) (done ++ group) := by
  obtain ⟨a, rest, rfl, hhead⟩ := hgroup.shares
  obtain ⟨t, ht, hta⟩ := hgroup.mem a (List.mem_cons_self ..)
  have hof := hgroup.of hrule
  obtain ⟨e, hfirst, hcovers, htext⟩ := exists_first (hrule.of_mem_alternatives ht)
  rw [hta] at htext
  have helements : a.elements = t.sequence := by rw [← hta]; rfl
  cases rest with
  | nil =>
      obtain ⟨u, hu⟩ := exists_concatenation (sequence_ne_nil t)
      have halternatives : (placeGroup name p [a]).alternatives = p.alternatives ++ [u] := by
        simp only [placeGroup, helements, hu, Option.toList_some]
      have hsequence : u.sequence = t.sequence :=
        sequence_eq_of_concatenation hu fun a ha => sequence_of_mem_sequence ha
      refine h.concat hplaced hplaced' (Grows.refl _) hapart halternatives ?_
        (by rw [hsequence]; exact hfirst) (Or.inl ⟨hcovers, a, List.mem_cons_self .., htext⟩)
      refine alternatives_of_concatenation hu fun b hb => ?_
      rw [eq_of_sequence_eq_singleton hb]
      exact alternatives_of_mem_alternatives ht
  | cons b rest =>
      have hshare : ∀ c ∈ b :: rest, c.texts.head? = a.texts.head? :=
        fun c hc => hhead c (List.mem_cons_of_mem a hc)
      have ha := hof a (List.mem_cons_self ..)
      obtain ⟨remaining, common, _, hcommon, hgrammar, halternatives⟩ := mergeGroup_spec ha hshare name p
      have hgrows := grows_withRule p.grammar (name ++ "_fac") remaining
      rw [← hgrammar] at hgrows
      rw [helements] at hcommon
      have hsingle := alternatives_join_reference common p.grammar.nonterminals.size
      rcases head?_sequence_join (one_le_groupSharedLength ha hshare) p.grammar.nonterminals.size hcommon
        with hbegin | hbegin
      · exact h.concat hplaced hplaced' hgrows hapart halternatives hsingle (hbegin.trans hfirst)
          (Or.inl ⟨hcovers, a, List.mem_cons_self .., htext⟩)
      · exact h.concat hplaced hplaced' hgrows hapart halternatives hsingle hbegin (Or.inr rfl)

theorem parted_foldl (hg : g.Readable) (hname : Token.IsIdentifier name) (hrule : g.Covers rule) :
    ∀ (gs : List (List Alternative)) {p : Progress} {done : List Alternative}, Placed g p done →
      Parted g p done → (∀ group ∈ gs, GroupOf g rule group) →
      gs.Pairwise (fun l r => ∀ x ∈ l, ∀ y ∈ r, x.Apart y) →
      (∀ a ∈ done, ∀ group ∈ gs, ∀ b ∈ group, a.Apart b) →
      Parted g (gs.foldl (placeGroup name) p) (done ++ gs.flatten) := by
  intro gs
  induction gs with
  | nil =>
      intro p done _ h _ _ _
      rw [List.flatten_nil, List.append_nil]
      exact h
  | cons group gs ih =>
      intro p done hplaced h hgroups hapart hdone
      obtain ⟨hfirst, hothers⟩ := List.pairwise_cons.1 hapart
      have hgroup := hgroups group (List.mem_cons_self ..)
      have hplaced' := placed_placeGroup hplaced hg hname (hgroup.of hrule) hgroup.shares
      have h' := parted_placeGroup h hplaced hplaced' hrule hgroup
        fun a ha => hdone a ha group (List.mem_cons_self ..)
      rw [List.flatten_cons, ← List.append_assoc]
      refine ih hplaced' h' (fun other hmem => hgroups other (List.mem_cons_of_mem _ hmem)) hothers ?_
      intro a ha other hother b hb
      rcases List.mem_append.1 ha with ha | ha
      · exact hdone a ha other (List.mem_cons_of_mem _ hother) b hb
      · exact hfirst other hother a ha b hb

/-! ### Passes -/

theorem Separated.of_grows {g' : Grammar} (h : Separated g nt) (hg : g.WellFormed) (hgrows : g.Grows g')
    (hrule : g'.rule? nt = g.rule? nt) : Separated g' nt := by
  intro rule hsome
  rw [hrule] at hsome
  refine (h rule hsome).imp_of_mem fun {t u} ht hu hne => ?_
  have hcovers := hg.covered hsome
  rw [firstText_of_grows hgrows (hcovers.of_mem_alternatives ht),
    firstText_of_grows hgrows (hcovers.of_mem_alternatives hu)]
  exact hne

/-- **What a pass leaves behind.**  The alternatives of the rule begin with different texts, the new
nonterminals have the next numbers, and their rules are smaller than the rule was. -/
theorem pass_spec (hg : g.Orderly) (nt : Nat) : Separated (pass g nt).grammar nt ∧
    (pass g nt).result = List.range' g.nonterminals.size (pass g nt).result.length ∧
    (pass g nt).grammar.nonterminals.size = g.nonterminals.size + (pass g nt).result.length ∧
    ∀ m ∈ (pass g nt).result, ruleSize (pass g nt).grammar m < ruleSize g nt := by
  rcases pass_cases g nt with ⟨hseparated, hsame⟩ | ⟨rule, p, hrule, hp, hgrammar, hresult⟩
  · rw [hsame]
    exact ⟨hseparated, rfl, rfl, fun m hm => by cases hm⟩
  · have hnt := hg.owned hrule
    have hcovers := hg.covered hrule
    have hname := hg.isIdentifier_name hnt
    have hplaced := placed_groups hg hcovers hname
    have hparted := parted_foldl hg.readable hname hcovers _ (placed_nil hg)
      ⟨fun t ht => (by cases ht), fun t ht => (by cases ht), List.Pairwise.nil⟩
      (fun group hgroup => groupOf_of_mem_groups hgroup) (apart_groups _) (fun a ha => (by cases ha))
    have hcounted := counted_groups hcovers (g.nonterminalName nt)
    rw [← hp] at hplaced hparted hcounted
    obtain ⟨revised, hrevised⟩ := exists_alternation (hplaced.nonempty (flatten_groups_ne_nil g rule))
    have hset : (pass g nt).grammar = p.grammar.setRule nt revised := by
      rw [hgrammar, setAlternatives, hrevised]
    rw [hset, hresult]
    refine ⟨fun other hother => ?_, hcounted.fresh, hcounted.size, fun m hm => ?_⟩
    · rw [rule?_setRule, if_pos rfl] at hother
      cases hother
      rw [alternatives_eq_of_alternation hrevised hparted.single]
      exact hparted.apart
    · have hle : g.nonterminals.size ≤ m := by
        rw [hcounted.fresh, List.mem_range'_1] at hm
        exact hm.1
      have hkept : (p.grammar.setRule nt revised).rule? m = p.grammar.rule? m := by
        rw [rule?_setRule, if_neg (by omega)]
      rw [ruleSize_congr hkept, ruleSize_eq hrule]
      exact hcounted.smaller m hm

theorem le_of_mem_pass (hg : g.Orderly) {m : Nat} (hm : m ∈ (pass g nt).result) :
    g.nonterminals.size ≤ m := by
  rw [(pass_spec hg nt).2.1, List.mem_range'_1] at hm
  exact hm.1

/-- A second pass finds nothing and changes nothing. -/
theorem pass_pass (hg : g.Orderly) (nt : Nat) :
    pass (pass g nt).grammar nt = ⟨(pass g nt).grammar, [], []⟩ :=
  pass_of_separated (pass_spec hg nt).1

/-- If a pass separates the rule, any number of passes from two on comes to that one pass. -/
theorem passes_eq_pass_of_separated (h : Separated (pass g nt).grammar nt) {left : Nat} (hleft : 2 ≤ left) :
    passes nt left g = pass g nt := by
  obtain ⟨left, rfl⟩ := Nat.exists_eq_add_of_le' hleft
  rw [passes]
  split
  · rfl
  · -- the second pass is the last one
    have hsecond : passes nt (left + 1) (pass g nt).grammar = ⟨(pass g nt).grammar, [], []⟩ := by
      rw [passes, pass_of_separated h]
      rfl
    show (⟨(passes nt (left + 1) (pass g nt).grammar).grammar,
      (pass g nt).result ++ (passes nt (left + 1) (pass g nt).grammar).result,
      (pass g nt).journal ++ (passes nt (left + 1) (pass g nt).grammar).journal⟩ : Revised (List Nat)) = _
    rw [hsecond, List.append_nil, List.append_nil]

/-- As long as two passes are allowed, the number of passes makes no difference. -/
theorem passes_eq_pass (hg : g.Orderly) (nt : Nat) {left : Nat} (hleft : 2 ≤ left) :
    passes nt left g = pass g nt :=
  passes_eq_pass_of_separated (pass_spec hg nt).1 hleft

end Factoring

end RuleGrammar
