import RuleGrammar.Proofs.Revision.Definitions
import RuleGrammar.Proofs.Revision.Grouping

/-!
# Left factoring keeps every language

A pass gives the rule of a nonterminal another form, in which new nonterminals stand for what remains of
merged alternatives.  Elements are compared by their texts, and those with the same text have the same
words, so what a group shares reads the same in each of its alternatives.

* `Placed`, `placed_placeGroup`: what holds while the groups are placed, and each step of it.
* `Separated`: a rule whose alternatives begin with different texts; `pass_cases`: what a pass can do.
* `keeps_pass`, `keeps_factorAll`: a pass, and factoring as a whole, keep every language.
-/

namespace RuleGrammar.Factoring

open Grammar RuleGrammar.Tree

variable {g : Grammar} {nt : Nat} {rule t : Rule} {S : Nat → Word → Prop} {w : Word}

/-! ### Placing the groups -/

/-- What holds when the groups of some alternatives have been placed: the alternatives of the revised
rule have the words of these. -/
structure Placed (g : Grammar) (p : Progress) (done : List Alternative) : Prop where
  orderly : p.grammar.Orderly
  defines : Defines g p.grammar
  covered : ∀ t ∈ p.alternatives, p.grammar.Covers t
  nonempty : done ≠ [] → p.alternatives ≠ []
  words : ∀ S, Unfolds g p.grammar S → ∀ w,
    (∃ t ∈ p.alternatives, t.Spells (Letter 0) S w) ↔ ∃ a ∈ done, SpellsEach S a.elements w

theorem spells_remainder_iff {n : Nat} {a : Alternative} :
    (remainder n a).Spells (Letter 0) S w ↔ SpellsEach S (a.elements.drop n) w := by
  unfold remainder
  cases hdrop : a.elements.drop n with
  | nil => exact spells_epsilon_iff
  | cons t ts => exact spells_foldl_seq

theorem piecewise_remainder {P : Rule → Prop} (hP : Piecewise P) {a : Alternative}
    (ha : ∀ t ∈ a.elements, P t) (n : Nat) : P (remainder n a) := by
  unfold remainder
  cases hcat : concatenation (a.elements.drop n) with
  | none => exact hP.epsilon
  | some t => exact hP.of_concatenation hcat fun b hb => ha b (List.mem_of_mem_drop hb)

theorem isIdentifier_remainderName {name : String} (h : Token.IsIdentifier name) :
    Token.IsIdentifier (name ++ "_fac") := by
  have hrest : "_fac".toList.all Token.isNameRest = true := by decide +kernel
  exact h.append (List.all_eq_true.1 hrest)

/-- What merging a group does: a nonterminal for what remains, and one alternative that refers to it. -/
theorem mergeGroup_spec {a : Alternative} {rest : List Alternative} (ha : a.Of g)
    (hrest : ∀ b ∈ rest, b.texts.head? = a.texts.head?) (name : String) (p : Progress) :
    ∃ remaining common,
      alternation ((a :: rest).map (remainder (groupSharedLength (a :: rest)))) = some remaining ∧
      concatenation (a.elements.take (groupSharedLength (a :: rest))) = some common ∧
      (mergeGroup name p (a :: rest)).grammar = withRule p.grammar (name ++ "_fac") remaining ∧
      (mergeGroup name p (a :: rest)).alternatives =
        p.alternatives ++ [common.join (.reference p.grammar.nonterminals.size false)] := by
  have hone := one_le_groupSharedLength ha hrest
  have htake : a.elements.take (groupSharedLength (a :: rest)) ≠ [] := by
    intro h
    rcases List.take_eq_nil_iff.1 h with h | h
    · omega
    · exact ha.nonempty h
  obtain ⟨common, hcommon⟩ := exists_concatenation htake
  refine ⟨_, common, rfl, hcommon, ?_, ?_⟩
  · simp only [mergeGroup, withRule, addFresh_eq, List.map_cons, alternation]
  · simp only [mergeGroup, addFresh_eq, hcommon, Option.toList_some, List.map_cons, List.map_nil]

/-- What a group shares, and then what remains of one of it, are the words of the group. -/
theorem spells_shared_iff (hg : g.Readable) {a : Alternative} {rest : List Alternative}
    (hof : ∀ b ∈ a :: rest, b.Of g) {common remaining : Rule}
    (hremaining : alternation ((a :: rest).map (remainder (groupSharedLength (a :: rest)))) = some remaining)
    (hcommon : concatenation (a.elements.take (groupSharedLength (a :: rest))) = some common) :
    (∃ u v, w = u ++ v ∧ common.Spells (Letter 0) S u ∧ remaining.Spells (Letter 0) S v) ↔
      ∃ b ∈ a :: rest, SpellsEach S b.elements w := by
  -- each alternative of the group is cut behind the elements that it shares with the first one
  have hcut : ∀ b ∈ a :: rest, (SpellsEach S b.elements w ↔ ∃ u v, w = u ++ v ∧
      common.Spells (Letter 0) S u ∧
        (remainder (groupSharedLength (a :: rest)) b).Spells (Letter 0) S v) := by
    intro b hb
    have hshared : ∀ u, SpellsEach S (a.elements.take (groupSharedLength (a :: rest))) u ↔
        SpellsEach S (b.elements.take (groupSharedLength (a :: rest))) u := fun u =>
      (hof a (List.mem_cons_self ..)).spellsEach_take (hof b hb) hg (take_groupSharedLength_eq hb)
    rw [← List.take_append_drop (groupSharedLength (a :: rest)) b.elements, spellsEach_append]
    simp only [spells_of_concatenation hcommon, spells_remainder_iff, hshared]
  constructor
  · rintro ⟨u, v, hw, hu, hv⟩
    obtain ⟨t, ht, hspells⟩ := (spells_of_alternation hremaining).1 hv
    obtain ⟨b, hb, rfl⟩ := List.mem_map.1 ht
    exact ⟨b, hb, (hcut b hb).2 ⟨u, v, hw, hu, hspells⟩⟩
  · rintro ⟨b, hb, hspells⟩
    obtain ⟨u, v, hw, hu, hv⟩ := (hcut b hb).1 hspells
    exact ⟨u, v, hw, hu, (spells_of_alternation hremaining).2 ⟨_, List.mem_map.2 ⟨b, hb, rfl⟩, hv⟩⟩

/-- One more alternative with the words of one more group. -/
theorem Placed.concat {p p' : Progress} {done group : List Alternative} (h : Placed g p done)
    (halternatives : p'.alternatives = p.alternatives ++ [t]) (horderly : p'.grammar.Orderly)
    (hdefines : Defines g p'.grammar) (hgrows : p.grammar.Grows p'.grammar)
    (hcovers : p'.grammar.Covers t)
    (hwords : ∀ S, Unfolds g p'.grammar S → Unfolds g p.grammar S ∧
      ∀ w, (t.Spells (Letter 0) S w ↔ ∃ b ∈ group, SpellsEach S b.elements w)) :
    Placed g p' (done ++ group) := by
  refine ⟨horderly, hdefines, fun u hu => ?_, fun _ => ?_, fun S hS w => ?_⟩
  · rw [halternatives] at hu
    rcases List.mem_append.1 hu with hu | hu
    · exact hgrows.covers (h.covered u hu)
    · rw [List.mem_singleton.1 hu]
      exact hcovers
  · rw [halternatives]
    exact List.append_ne_nil_of_right_ne_nil _ (List.cons_ne_nil _ _)
  · obtain ⟨hold, hgroup⟩ := hwords S hS
    rw [halternatives]
    simp only [List.mem_append, or_and_right, exists_or, h.words S hold w, List.mem_singleton,
      exists_eq_left, hgroup]

theorem placed_mergeGroup {p : Progress} {done : List Alternative} (h : Placed g p done)
    (hg : g.Readable) {name : String} (hname : Token.IsIdentifier name) {a : Alternative}
    {rest : List Alternative} (hof : ∀ b ∈ a :: rest, b.Of g)
    (hshare : ∀ b ∈ a :: rest, b.texts.head? = a.texts.head?) :
    Placed g (mergeGroup name p (a :: rest)) (done ++ (a :: rest)) := by
  have ha := hof a (List.mem_cons_self ..)
  obtain ⟨remaining, common, hremaining, hcommon, hgrammar, halternatives⟩ :=
    mergeGroup_spec ha (fun b hb => hshare b (List.mem_cons_of_mem _ hb)) name p
  have hcoversRemaining : g.Covers remaining := by
    refine covers_of_alternation hremaining fun t ht => ?_
    obtain ⟨b, hb, rfl⟩ := List.mem_map.1 ht
    exact piecewise_remainder (piecewise_covers g) (hof b hb).covered _
  have hcoversCommon : g.Covers common :=
    covers_of_concatenation hcommon fun t ht => ha.covered t (List.mem_of_mem_take ht)
  have hgrows := grows_withRule p.grammar (name ++ "_fac") remaining
  have hsize := size_withRule p.grammar (name ++ "_fac") remaining
  refine h.concat halternatives ?_ ?_ ?_ ?_ ?_ <;> rw [hgrammar]
  · exact orderly_withRule h.orderly (isIdentifier_remainderName hname)
      (h.defines.grows.covers hcoversRemaining)
  · exact h.defines.withRule _ hcoversRemaining
  · exact hgrows
  · refine covers_join (hgrows.covers (h.defines.grows.covers hcoversCommon)) ?_
    show p.grammar.nonterminals.size < _
    omega
  · intro S hS
    obtain ⟨hold, hnew⟩ := hS.of_withRule h.defines.nonterminals.size_le
    refine ⟨hold, fun w => ?_⟩
    -- the new nonterminal has the words of what remains
    rw [spells_join_iff, ← spells_shared_iff hg hof hremaining hcommon]
    simp only [Spells, hnew]

/-- **Placing a group goes on.**  Alone or merged, its alternatives are then among those that are done. -/
theorem placed_placeGroup {p : Progress} {done group : List Alternative} (h : Placed g p done)
    (hg : g.Readable) {name : String} (hname : Token.IsIdentifier name)
    (hof : ∀ b ∈ group, b.Of g) (hshare : SharesHead group) :
    Placed g (placeGroup name p group) (done ++ group) := by
  obtain ⟨a, rest, rfl, hhead⟩ := hshare
  cases rest with
  | cons b rest => exact placed_mergeGroup h hg hname hof hhead
  | nil =>
      have ha := hof a (List.mem_cons_self ..)
      obtain ⟨t, ht⟩ := exists_concatenation ha.nonempty
      have halternatives : (placeGroup name p [a]).alternatives = p.alternatives ++ [t] := by
        simp only [placeGroup, ht, Option.toList_some]
      refine h.concat halternatives h.orderly h.defines (Grows.refl _) ?_ fun S hS => ⟨hS, fun w => ?_⟩
      · exact h.defines.grows.covers (covers_of_concatenation ht ha.covered)
      · rw [spells_of_concatenation ht]
        simp only [List.mem_singleton, exists_eq_left]

theorem placed_foldl {name : String} (hg : g.Readable) (hname : Token.IsIdentifier name) :
    ∀ (gs : List (List Alternative)) {p : Progress} {done : List Alternative}, Placed g p done →
      (∀ group ∈ gs, SharesHead group ∧ ∀ b ∈ group, b.Of g) →
      Placed g (gs.foldl (placeGroup name) p) (done ++ gs.flatten) := by
  intro gs
  induction gs with
  | nil =>
      intro p done h _
      rw [List.flatten_nil, List.append_nil]
      exact h
  | cons group gs ih =>
      intro p done h hgs
      obtain ⟨hshare, hof⟩ := hgs group (List.mem_cons_self ..)
      rw [List.flatten_cons, ← List.append_assoc]
      exact ih (placed_placeGroup h hg hname hof hshare)
        fun group hgroup => hgs group (List.mem_cons_of_mem _ hgroup)

/-- What holds before anything is placed. -/
theorem placed_nil (hg : g.Orderly) : Placed g { grammar := g } [] where
  orderly := hg
  defines := Defines.refl g
  covered t ht := by cases ht
  nonempty h := absurd rfl h
  words S _ w := by simp

/-- What holds when all groups of a rule have been placed. -/
theorem placed_groups (hg : g.Orderly) (hrule : g.Covers rule) {name : String}
    (hname : Token.IsIdentifier name) :
    Placed g ((groups (distinct (rule.alternatives.map (Alternative.ofRule g)))).foldl (placeGroup name)
        { grammar := g })
      (groups (distinct (rule.alternatives.map (Alternative.ofRule g)))).flatten := by
  refine placed_foldl hg.readable hname _ (placed_nil hg) fun group hgroup => ?_
  obtain ⟨hshare, hmem⟩ := sharesHead_of_mem_groups hgroup
  exact ⟨hshare, fun b hb => of_of_mem_distinct hrule b (hmem b hb)⟩

/-! ### Passes -/

/-- The alternatives that are kept have all words of the rule. -/
theorem spells_iff_distinct (hg : g.Readable) (hrule : g.Covers rule) :
    rule.Spells (Letter 0) S w ↔
      ∃ a ∈ distinct (rule.alternatives.map (Alternative.ofRule g)), SpellsEach S a.elements w := by
  obtain ⟨_, hkept⟩ := distinct_spec (rule.alternatives.map (Alternative.ofRule g))
  rw [spells_iff_alternatives]
  constructor
  · rintro ⟨t, ht, hspells⟩
    obtain ⟨b, hb, hsame⟩ := hkept _ (List.mem_map.2 ⟨t, ht, rfl⟩)
    obtain ⟨u, hu, rfl⟩ := exists_of_mem_distinct hb
    refine ⟨_, hb, (spellsEach_congr_of_texts hg ?_ ?_ hsame).2 (spells_iff_sequence.1 hspells)⟩
    · exact fun x hx => (hrule.of_mem_alternatives hu).of_mem_sequence hx
    · exact fun x hx => (hrule.of_mem_alternatives ht).of_mem_sequence hx
  · rintro ⟨b, hb, hspells⟩
    obtain ⟨u, hu, rfl⟩ := exists_of_mem_distinct hb
    exact ⟨u, hu, spells_iff_sequence.2 hspells⟩

/-- Alternatives with the words of the rule may take its place. -/
theorem keeps_setAlternatives {p : Progress} {done : List Alternative} (h : Placed g p done)
    (hg : g.WellFormed) (hrule : g.rule? nt = some rule) (hdone : done ≠ [])
    (hwords : ∀ S w, rule.Spells (Letter 0) S w ↔ ∃ a ∈ done, SpellsEach S a.elements w) :
    (setAlternatives p.grammar nt p.alternatives).Orderly ∧
      g.Keeps (setAlternatives p.grammar nt p.alternatives) := by
  have hnt := Nat.lt_of_lt_of_le (hg.owned hrule) h.defines.nonterminals.size_le
  obtain ⟨revised, hrevised⟩ := exists_alternation (h.nonempty hdone)
  have hset : setAlternatives p.grammar nt p.alternatives = p.grammar.setRule nt revised := by
    rw [setAlternatives, hrevised]
  rw [hset]
  refine ⟨h.orderly.setRule hnt (covers_of_alternation hrevised h.covered),
    keeps_of_unfolds h.defines hg hrule fun S hS w => ?_⟩
  rw [spells_of_alternation hrevised, h.words S hS w, hwords]

/-- Groups of one alternative each go into the revised rule as they are. -/
theorem foldl_placeGroup_singles (name : String) (kept : List Alternative) (p : Progress) :
    (kept.map fun a => [a]).foldl (placeGroup name) p =
      { p with alternatives := p.alternatives ++ kept.filterMap fun a => concatenation a.elements } := by
  induction kept generalizing p with
  | nil => simp
  | cons a kept ih =>
      rw [List.map_cons, List.foldl_cons, ih, List.filterMap_cons]
      cases hcat : concatenation a.elements <;> simp [placeGroup, hcat]

def firstText (g : Grammar) (t : Rule) : Option String := t.sequence.head?.map g.ruleText

/-- The alternatives of the rule of a nonterminal, if it has one, begin with different texts. -/
def Separated (g : Grammar) (nt : Nat) : Prop :=
  ∀ rule, g.rule? nt = some rule →
    rule.alternatives.Pairwise fun t u => firstText g t ≠ firstText g u

theorem separated_of_no_rule (h : g.rule? nt = none) : Separated g nt := by
  intro rule hrule
  rw [h] at hrule
  cases hrule

theorem head?_texts_ofRule (g : Grammar) (t : Rule) :
    (Alternative.ofRule g t).texts.head? = firstText g t :=
  List.head?_map

theorem pairwise_apart_ofRule {ts : List Rule} :
    (ts.map (Alternative.ofRule g)).Pairwise Alternative.Apart ↔
      ts.Pairwise fun t u => firstText g t ≠ firstText g u := by
  simp only [List.pairwise_map, Alternative.Apart, head?_texts_ofRule]

/-- What a pass can do: nothing to a separated rule, or put in its place what has become of the groups
of its alternatives. -/
theorem pass_cases (g : Grammar) (nt : Nat) : (Separated g nt ∧ pass g nt = ⟨g, [], []⟩) ∨
    ∃ rule p, g.rule? nt = some rule ∧
      p = (groups (distinct (rule.alternatives.map (Alternative.ofRule g)))).foldl
        (placeGroup (g.nonterminalName nt)) { grammar := g } ∧
      (pass g nt).grammar = setAlternatives p.grammar nt p.alternatives ∧
      (pass g nt).result = p.fresh := by
  unfold pass
  split
  · next hnone =>
      exact Or.inl ⟨separated_of_no_rule hnone, rfl⟩
  · next rule hrule =>
      dsimp only
      split
      · next hsingles =>
          have hapart := pairwise_of_singles (by simpa using hsingles)
          split
          · refine Or.inr ⟨rule, _, hrule, rfl, ?_⟩
            rw [groups_of_pairwise hapart, foldl_placeGroup_singles]
            exact ⟨rfl, rfl⟩
          · next hlength =>
              -- nothing was dropped
              refine Or.inl ⟨fun other hother => ?_, rfl⟩
              rw [hrule] at hother
              cases hother
              have hsublist := (distinct_spec (rule.alternatives.map (Alternative.ofRule g))).1
              have hle := hsublist.length_le
              have hall := hsublist.eq_of_length (by rw [List.length_map] at hle ⊢; omega)
              rw [hall] at hapart
              exact pairwise_apart_ofRule.1 hapart
      · exact Or.inr ⟨rule, _, hrule, rfl, rfl, rfl⟩

/-- A separated rule is left as it is. -/
theorem pass_of_separated {nt : Nat} (h : Separated g nt) : pass g nt = ⟨g, [], []⟩ := by
  unfold pass
  split
  · rfl
  · next rule hrule =>
      have hapart := pairwise_apart_ofRule.2 (h rule hrule)
      have hkept := distinct_eq_self (hapart.imp Alternative.Apart.texts_ne)
      simp only [hkept, groups_of_pairwise hapart]
      rw [if_pos (by simp), if_neg (by simp)]

/-- One pass keeps every language. -/
theorem keeps_pass (hg : g.Orderly) (nt : Nat) :
    (pass g nt).grammar.Orderly ∧ g.Keeps (pass g nt).grammar := by
  rcases pass_cases g nt with ⟨_, hsame⟩ | ⟨rule, p, hrule, rfl, hgrammar, _⟩
  · rw [hsame]
    exact ⟨hg, Keeps.refl g⟩
  · have hcovers := hg.covered hrule
    have hplaced := placed_groups hg hcovers (hg.isIdentifier_name (hg.owned hrule))
    have hmem := fun a => (groups_spec (distinct (rule.alternatives.map (Alternative.ofRule g)))).2.mem_iff
      (a := a)
    rw [hgrammar]
    refine keeps_setAlternatives hplaced hg.toWellFormed hrule (flatten_groups_ne_nil g rule) fun S w => ?_
    simp only [hmem, spells_iff_distinct hg.readable hcovers]

/-! ### Whole rules -/

theorem keeps_passes (nt : Nat) : ∀ (left : Nat) {g : Grammar}, g.Orderly →
    (passes nt left g).grammar.Orderly ∧ g.Keeps (passes nt left g).grammar := by
  intro left
  induction left with
  | zero =>
      intro g hg
      exact ⟨hg, Keeps.refl g⟩
  | succ left ih =>
      intro g hg
      obtain ⟨horderly, hkeeps⟩ := keeps_pass hg nt
      rw [passes]
      split
      · exact ⟨horderly, hkeeps⟩
      · obtain ⟨hrest, hkeepsRest⟩ := ih horderly
        exact ⟨hrest, hkeeps.trans hkeepsRest⟩

theorem keeps_factorWithin : ∀ (depth : Nat) {g : Grammar} (nt : Nat), g.Orderly →
    (factorWithin depth g nt).grammar.Orderly ∧ g.Keeps (factorWithin depth g nt).grammar := by
  intro depth
  induction depth with
  | zero =>
      intro g nt hg
      exact ⟨hg, Keeps.refl g⟩
  | succ depth ih =>
      intro g nt hg
      obtain ⟨horderly, hkeeps⟩ := keeps_passes nt maxPasses hg
      obtain ⟨hrest, hkeepsRest⟩ :=
        keeps_reviseEach Orderly (fun _ nt hg => ih nt hg) horderly (passes nt maxPasses g).result.reverse
      exact ⟨hrest, hkeeps.trans hkeepsRest⟩

/-- **Left factoring keeps every language.** -/
theorem keeps_factorAll (hg : g.Orderly) :
    (factorAll g).grammar.Orderly ∧ g.Keeps (factorAll g).grammar :=
  keeps_reviseEach Orderly (fun _ nt hg => keeps_factorWithin _ nt hg) hg _

end RuleGrammar.Factoring
