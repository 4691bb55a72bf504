import Mathlib.Data.List.Induction
import RuleGrammar.Proofs.Chains
import RuleGrammar.Proofs.NameLanguage
import RuleGrammar.Revision.Factoring

/-!
# Alternatives and their groups

Factoring keeps one alternative of each list of texts, and puts those with the same first text into one
group.  What a group shares from the left has the same words in all of its alternatives, because trees
with the same text have the same words.

* `Alternative.Of`: an alternative with the texts of its elements; `Alternative.Apart`: two alternatives
  with different first texts.
* `distinct_spec`, `pairwise_distinct`, `distinct_eq_self`: the alternatives that are kept.
* `groups_spec`, `apart_groups`: the groups; `pairwise_of_singles`, `groups_of_pairwise`: groups of one
  alternative each.
* `le_groupSharedLength_iff`, `take_groupSharedLength_eq`: what a group shares.
-/

namespace RuleGrammar.Factoring

open Grammar RuleGrammar.Tree

variable {g : Grammar} {rule t : Rule} {S : Nat → Word → Prop} {w : Word} {a b : Alternative}
  {as : List Alternative} {gs : List (List Alternative)}

/-! ### Alternatives -/

theorem spellsEach_congr_of_texts (hg : g.Readable) {ts us : List Rule} (hts : ∀ t ∈ ts, g.Covers t)
    (hus : ∀ u ∈ us, g.Covers u) (h : ts.map g.ruleText = us.map g.ruleText) :
    SpellsEach S ts w ↔ SpellsEach S us w := by
  induction ts generalizing us w with
  | nil => rw [List.map_eq_nil_iff.1 h.symm]
  | cons t ts ih =>
      obtain ⟨u, us, rfl, htext, hrest⟩ := List.map_eq_cons_iff.1 h.symm
      have hhead : ∀ w, t.Spells (Letter 0) S w ↔ u.Spells (Letter 0) S w := fun w =>
        spells_congr_of_text hg (hts t (List.mem_cons_self ..)) (hus u (List.mem_cons_self ..)) htext.symm
      have htail : ∀ w, SpellsEach S ts w ↔ SpellsEach S us w := fun w =>
        ih (fun t ht => hts t (List.mem_cons_of_mem _ ht))
          (fun u hu => hus u (List.mem_cons_of_mem _ hu)) hrest.symm
      simp only [SpellsEach, hhead, htail]

/-- The texts of an alternative are those of its elements, of which there are some. -/
structure Alternative.Of (g : Grammar) (a : Alternative) : Prop where
  texts : a.texts = a.elements.map g.ruleText
  nonempty : a.elements ≠ []
  covered : ∀ t ∈ a.elements, g.Covers t

theorem Alternative.of_ofRule (ht : g.Covers t) : (Alternative.ofRule g t).Of g :=
  ⟨rfl, sequence_ne_nil t, fun _ ha => ht.of_mem_sequence ha⟩

/-- Alternatives that begin with the same texts begin with the same words. -/
theorem Alternative.Of.spellsEach_take (ha : a.Of g) (hb : b.Of g)
    (hg : g.Readable) {n : Nat} (h : a.texts.take n = b.texts.take n) :
    SpellsEach S (a.elements.take n) w ↔ SpellsEach S (b.elements.take n) w := by
  refine spellsEach_congr_of_texts hg (fun t ht => ha.covered t (List.mem_of_mem_take ht))
    (fun t ht => hb.covered t (List.mem_of_mem_take ht)) ?_
  rw [List.map_take, List.map_take, ← ha.texts, ← hb.texts]
  exact h

def Alternative.Apart (a b : Alternative) : Prop := a.texts.head? ≠ b.texts.head?

theorem Alternative.Apart.symm (h : a.Apart b) : b.Apart a := Ne.symm h

theorem Alternative.Apart.texts_ne (h : a.Apart b) : a.texts ≠ b.texts :=
  fun hsame => h (congrArg List.head? hsame)

/-! ### The alternatives that are kept -/

theorem distinct_concat (as : List Alternative) (a : Alternative) : distinct (as ++ [a]) =
    if (distinct as).any fun b => b.texts == a.texts then distinct as else distinct as ++ [a] := by
  rw [distinct, List.foldl_append]
  rfl

/-- Kept alternatives are alternatives, and one with the texts of each alternative is kept. -/
theorem distinct_spec (as : List Alternative) :
    (distinct as).Sublist as ∧ ∀ a ∈ as, ∃ b ∈ distinct as, b.texts = a.texts := by
  induction as using List.reverseRecOn with
  | nil => exact ⟨List.Sublist.refl _, fun a ha => (by cases ha)⟩
  | append_singleton as a ih =>
      obtain ⟨hsublist, hkept⟩ := ih
      rw [distinct_concat]
      split
      · next hany =>
          obtain ⟨b, hb, hsame⟩ := List.any_eq_true.1 hany
          refine ⟨hsublist.trans (List.sublist_append_left as [a]), fun c hc => ?_⟩
          rcases List.mem_append.1 hc with hc | hc
          · exact hkept c hc
          · rw [List.mem_singleton.1 hc]
            exact ⟨b, hb, by simpa using hsame⟩
      · refine ⟨hsublist.append (List.Sublist.refl [a]), fun c hc => ?_⟩
        rcases List.mem_append.1 hc with hc | hc
        · obtain ⟨b, hb, hsame⟩ := hkept c hc
          exact ⟨b, List.mem_append_left _ hb, hsame⟩
        · exact ⟨c, List.mem_append_right _ hc, rfl⟩

/-- No two of the kept alternatives have the same texts. -/
theorem pairwise_distinct (as : List Alternative) :
    (distinct as).Pairwise fun a b => a.texts ≠ b.texts := by
  induction as using List.reverseRecOn with
  | nil => exact List.Pairwise.nil
  | append_singleton as a ih =>
      rw [distinct_concat]
      split
      · exact ih
      · next hany =>
          refine List.pairwise_append.2 ⟨ih, List.pairwise_singleton _ a, fun b hb c hc hsame => ?_⟩
          rw [List.mem_singleton.1 hc] at hsame
          exact hany (List.any_eq_true.2 ⟨b, hb, by simpa using hsame⟩)

/-- Alternatives with different texts are all kept. -/
theorem distinct_eq_self (h : as.Pairwise fun a b => a.texts ≠ b.texts) : distinct as = as := by
  induction as using List.reverseRecOn with
  | nil => rfl
  | append_singleton as a ih =>
      obtain ⟨hold, _, hnew⟩ := List.pairwise_append.1 h
      rw [distinct_concat, ih hold, if_neg]
      intro hany
      obtain ⟨b, hb, hsame⟩ := List.any_eq_true.1 hany
      exact hnew b hb a (List.mem_singleton_self a) (by simpa using hsame)

theorem exists_of_mem_distinct (ha : a ∈ distinct (rule.alternatives.map (Alternative.ofRule g))) :
    ∃ t ∈ rule.alternatives, Alternative.ofRule g t = a :=
  List.mem_map.1 ((distinct_spec _).1.subset ha)

theorem of_of_mem_distinct (hrule : g.Covers rule) :
    ∀ a ∈ distinct (rule.alternatives.map (Alternative.ofRule g)), a.Of g := by
  intro a ha
  obtain ⟨t, ht, rfl⟩ := exists_of_mem_distinct ha
  exact Alternative.of_ofRule (hrule.of_mem_alternatives ht)

theorem distinct_ne_nil (g : Grammar) (rule : Rule) :
    distinct (rule.alternatives.map (Alternative.ofRule g)) ≠ [] := by
  obtain ⟨t, ts, hts⟩ := List.exists_cons_of_ne_nil (alternatives_ne_nil rule)
  obtain ⟨b, hb, _⟩ := (distinct_spec (rule.alternatives.map (Alternative.ofRule g))).2
    (Alternative.ofRule g t) (by rw [hts]; exact List.mem_cons_self ..)
  exact List.ne_nil_of_mem hb

/-! ### The groups -/

/-- A group is not empty, and its alternatives have the same first text. -/
def SharesHead (group : List Alternative) : Prop :=
  ∃ a rest, group = a :: rest ∧ ∀ b ∈ group, b.texts.head? = a.texts.head?

theorem perm_flatten_addToGroups (a : Alternative) (gs : List (List Alternative)) :
    (addToGroups a gs).flatten.Perm (a :: gs.flatten) := by
  induction gs with
  | nil => exact List.Perm.refl _
  | cons group gs ih =>
      rw [addToGroups]
      split
      · rw [List.flatten_cons, List.flatten_cons, List.append_assoc]
        exact List.perm_middle
      · rw [List.flatten_cons, List.flatten_cons]
        exact (ih.append_left group).trans List.perm_middle

theorem sharesHead_of_mem_addToGroups
    (h : ∀ group ∈ gs, SharesHead group) : ∀ group ∈ addToGroups a gs, SharesHead group := by
  induction gs with
  | nil =>
      intro group hgroup
      rw [List.mem_singleton.1 hgroup]
      refine ⟨a, [], rfl, fun b hb => ?_⟩
      rw [List.mem_singleton.1 hb]
  | cons first gs ih =>
      obtain ⟨c, rest, rfl, hshare⟩ := h first (List.mem_cons_self ..)
      have hrest : ∀ group ∈ gs, SharesHead group := fun group hmem => h group (List.mem_cons_of_mem _ hmem)
      rw [addToGroups]
      split
      · next hsame =>
          intro group hgroup
          rcases List.mem_cons.1 hgroup with rfl | hgroup
          · refine ⟨c, rest ++ [a], rfl, fun b hb => ?_⟩
            rcases List.mem_append.1 hb with hb | hb
            · exact hshare b hb
            · rw [List.mem_singleton.1 hb]
              exact (Option.some.inj hsame).symm
          · exact hrest group hgroup
      · intro group hgroup
        rcases List.mem_cons.1 hgroup with rfl | hgroup
        · exact ⟨c, rest, rfl, hshare⟩
        · exact ih hrest group hgroup

/-- One more alternative keeps the groups apart: it goes where its first text is, if it is anywhere. -/
theorem apart_addToGroups (h : ∀ group ∈ gs, SharesHead group)
    (hapart : gs.Pairwise fun l r => ∀ x ∈ l, ∀ y ∈ r, x.Apart y) :
    (addToGroups a gs).Pairwise fun l r => ∀ x ∈ l, ∀ y ∈ r, x.Apart y := by
  induction gs with
  | nil => exact List.pairwise_singleton _ _
  | cons first gs ih =>
      obtain ⟨hfirst, hothers⟩ := List.pairwise_cons.1 hapart
      obtain ⟨c, rest, rfl, hshare⟩ := h first (List.mem_cons_self ..)
      rw [addToGroups]
      split
      · next hsame =>
          refine List.pairwise_cons.2 ⟨fun group hgroup x hx y hy => ?_, hothers⟩
          rcases List.mem_append.1 hx with hx | hx
          · exact hfirst group hgroup x hx y hy
          · rw [List.mem_singleton.1 hx]
            have hc := hfirst group hgroup c (List.mem_cons_self ..) y hy
            exact fun htexts => hc ((Option.some.inj hsame).trans htexts)
      · next hdiffer =>
          have hrest := ih (fun group hmem => h group (List.mem_cons_of_mem _ hmem)) hothers
          refine List.pairwise_cons.2 ⟨fun group hgroup x hx y hy => ?_, hrest⟩
          have hmem : y ∈ a :: gs.flatten :=
            (perm_flatten_addToGroups a gs).subset (List.mem_flatten.2 ⟨group, hgroup, hy⟩)
          rcases List.mem_cons.1 hmem with rfl | hmem
          · intro htexts
            exact hdiffer (congrArg some ((hshare x hx).symm.trans htexts))
          · obtain ⟨other, hother, hy⟩ := List.mem_flatten.1 hmem
            exact hfirst other hother x hx y hy

theorem groups_concat (as : List Alternative) (a : Alternative) :
    groups (as ++ [a]) = addToGroups a (groups as) := by
  rw [groups, List.foldl_append]
  rfl

/-- Groups share their first text, and together they are the alternatives. -/
theorem groups_spec (as : List Alternative) :
    (∀ group ∈ groups as, SharesHead group) ∧ (groups as).flatten.Perm as := by
  induction as using List.reverseRecOn with
  | nil => exact ⟨fun group h => (by cases h), List.Perm.refl _⟩
  | append_singleton as a ih =>
      obtain ⟨hshare, hperm⟩ := ih
      rw [groups_concat]
      refine ⟨sharesHead_of_mem_addToGroups hshare, ?_⟩
      exact (perm_flatten_addToGroups a _).trans ((hperm.cons a).trans (List.perm_append_singleton a as).symm)

/-- Every rule has groups. -/
theorem flatten_groups_ne_nil (g : Grammar) (rule : Rule) :
    (groups (distinct (rule.alternatives.map (Alternative.ofRule g)))).flatten ≠ [] := by
  obtain ⟨a, ha⟩ := List.exists_mem_of_ne_nil _ (distinct_ne_nil g rule)
  exact List.ne_nil_of_mem ((groups_spec _).2.mem_iff.2 ha)

theorem sharesHead_of_mem_groups {group : List Alternative} (h : group ∈ groups as) :
    SharesHead group ∧ ∀ b ∈ group, b ∈ as := by
  obtain ⟨hshare, hperm⟩ := groups_spec as
  exact ⟨hshare group h, fun b hb => hperm.subset (List.mem_flatten.2 ⟨group, h, hb⟩)⟩

/-- Alternatives of different groups have different first texts. -/
theorem apart_groups (as : List Alternative) :
    (groups as).Pairwise fun l r => ∀ x ∈ l, ∀ y ∈ r, x.Apart y := by
  induction as using List.reverseRecOn with
  | nil => exact List.Pairwise.nil
  | append_singleton as a ih =>
      rw [groups_concat]
      exact apart_addToGroups (groups_spec as).1 ih

/-- If all groups hold one alternative, then these have different first texts. -/
theorem pairwise_of_singles (h : ∀ group ∈ groups as, group.length = 1) :
    as.Pairwise Alternative.Apart := by
  refine ((groups_spec as).2.pairwise_iff Alternative.Apart.symm).1
    (List.pairwise_flatten.2 ⟨fun group hgroup => ?_, apart_groups as⟩)
  obtain ⟨a, rfl⟩ := List.length_eq_one_iff.1 (h group hgroup)
  exact List.pairwise_singleton _ a

theorem addToGroups_of_apart (h : ∀ group ∈ gs, ∃ b, group = [b] ∧ b.Apart a) :
    addToGroups a gs = gs ++ [[a]] := by
  induction gs with
  | nil => rfl
  | cons group gs ih =>
      obtain ⟨b, rfl, hb⟩ := h group (List.mem_cons_self ..)
      have hdiffer : ¬ [b].head?.map (·.texts.head?) = some a.texts.head? :=
        fun hsame => hb (Option.some.inj hsame)
      rw [addToGroups, if_neg hdiffer, ih fun group hmem => h group (List.mem_cons_of_mem _ hmem)]
      rfl

/-- Alternatives with different first texts are groups of their own. -/
theorem groups_of_pairwise (h : as.Pairwise Alternative.Apart) : groups as = as.map fun a => [a] := by
  induction as using List.reverseRecOn with
  | nil => rfl
  | append_singleton as a ih =>
      obtain ⟨hold, _, hnew⟩ := List.pairwise_append.1 h
      rw [groups_concat, ih hold, List.map_append]
      refine addToGroups_of_apart fun group hgroup => ?_
      obtain ⟨b, hb, rfl⟩ := List.mem_map.1 hgroup
      exact ⟨b, rfl, hnew b hb a (List.mem_singleton_self a)⟩

/-! ### What a group shares -/

theorem take_eq_of_le_sharedLength {as bs : List String} {n : Nat} (h : n ≤ sharedLength as bs) :
    as.take n = bs.take n := by
  induction as generalizing bs n with
  | nil =>
      rw [show n = 0 from Nat.le_zero.1 h]
      rfl
  | cons a as ih =>
      cases n with
      | zero => rfl
      | succ n =>
          cases bs with
          | nil => cases h
          | cons b bs =>
              rw [sharedLength] at h
              split at h
              · next hsame =>
                  rw [List.take_succ_cons, List.take_succ_cons, hsame, ih (Nat.le_of_succ_le_succ h)]
              · cases h

/-- The shared length is the greatest number of texts of the first alternative that it shares with each
of the others. -/
theorem le_groupSharedLength_iff {rest : List Alternative} {n : Nat} :
    n ≤ groupSharedLength (a :: rest) ↔
      n ≤ a.texts.length ∧ ∀ b ∈ rest, n ≤ sharedLength a.texts b.texts := by
  induction rest using List.reverseRecOn with
  | nil => simp [groupSharedLength]
  | append_singleton rest c ih =>
      have hconcat : groupSharedLength (a :: (rest ++ [c])) =
          min (groupSharedLength (a :: rest)) (sharedLength a.texts c.texts) := by
        rw [groupSharedLength, List.foldl_append]
        rfl
      rw [hconcat, Nat.le_min, ih]
      simp only [List.mem_append, List.mem_singleton, or_imp, forall_and, forall_eq, and_assoc]

/-- All alternatives of a group begin with as many of the same texts. -/
theorem take_groupSharedLength_eq {rest : List Alternative} (hb : b ∈ a :: rest) :
    a.texts.take (groupSharedLength (a :: rest)) = b.texts.take (groupSharedLength (a :: rest)) := by
  obtain ⟨_, hrest⟩ := le_groupSharedLength_iff.1 (Nat.le_refl (groupSharedLength (a :: rest)))
  rcases List.mem_cons.1 hb with rfl | hb
  · rfl
  · exact take_eq_of_le_sharedLength (hrest b hb)

/-- Alternatives with the same first text share it. -/
theorem one_le_groupSharedLength {rest : List Alternative} (ha : a.Of g)
    (hrest : ∀ b ∈ rest, b.texts.head? = a.texts.head?) : 1 ≤ groupSharedLength (a :: rest) := by
  obtain ⟨text, texts, htexts⟩ : ∃ text texts, a.texts = text :: texts := by
    refine List.exists_cons_of_ne_nil ?_
    rw [ha.texts]
    exact fun h => ha.nonempty (List.map_eq_nil_iff.1 h)
  rw [le_groupSharedLength_iff, htexts]
  refine ⟨Nat.le_add_left 1 _, fun b hb => ?_⟩
  have hhead := hrest b hb
  rw [htexts] at hhead
  obtain ⟨others, hothers⟩ := List.head?_eq_some_iff.1 hhead
  rw [hothers, sharedLength, if_pos rfl]
  exact Nat.le_add_left 1 _

end RuleGrammar.Factoring
