import Mathlib.Algebra.BigOperators.Group.Finset.Basic
import Mathlib.Data.List.GetD
import Mathlib.Order.Bounds.Basic
import RuleGrammar.Prediction

/-!
# Tables hold the last claims

The cells of a prediction table are filled by the claims of all alternatives, one alternative after the
other.  An alternative takes every cell that it claims, and each cell that was filled before costs one
conflict, always with an earlier alternative.  So a cell ends with the last alternative that claims it, and
a cell that `n` alternatives claim has cost `n - 1` conflicts.

* `predictionSets`: the lookaheads that the alternatives of a nonterminal claim, in order;
  `mem_getD_predictionSets`.
* `claimants`: the alternatives that claim a lookahead, in ascending order; `claimants_concat`.
* `enterSet_eq`: the cells and the conflicts after all claims of one alternative.
* `Tallied`, `tallied_enterSet`, `tallied_claimAll`: what holds when some alternatives have made their claims.
* `length_conflicts`: the number of conflicts of a table.
* `table_describes_predictionSets`: the cells, the conflicts, and when there are none.
-/

namespace RuleGrammar.Prediction

/-! ### Cells -/

theorem lookup_enter (slot alternative x : Nat) (cells : Cells) :
    List.lookup x (cells.enter slot alternative)
      = if x = slot then some alternative else List.lookup x cells := by
  induction cells with
  | nil =>
      rw [Cells.enter, List.lookup_cons]
      by_cases hx : x = slot
      · rw [if_pos hx, hx, beq_self_eq_true]
      · rw [if_neg hx, beq_eq_false_iff_ne.2 hx]
  | cons cell cells ih =>
      obtain ⟨key, value⟩ := cell
      rw [Cells.enter]
      by_cases hkey : key = slot
      · rw [if_pos hkey, List.lookup_cons, List.lookup_cons, hkey]
        by_cases hx : x = slot
        · rw [if_pos hx, hx, beq_self_eq_true]
        · rw [if_neg hx, beq_eq_false_iff_ne.2 hx]
      · rw [if_neg hkey, List.lookup_cons, List.lookup_cons, ih]
        by_cases hx : x = key
        · subst hx
          rw [beq_self_eq_true]
          exact (if_neg hkey).symm
        · rw [beq_eq_false_iff_ne.2 hx]

/-! ### Claimants -/

/-- The lookaheads that the alternatives of a nonterminal of the table claim, in order. -/
def predictionSets (g : Grammar) (a : Analysis) (nt : Nat) : List LookaheadSet :=
  if nt < g.nonterminals.size then (alternativesOf g nt).map (predictionSet a nt) else []

theorem mem_predictionSet {a : Analysis} {nt x : Nat} {alternative : Rule} :
    x ∈ predictionSet a nt alternative ↔
      x ∈ a.firstOf alternative ∨ a.isNullable alternative = true ∧ x ∈ a.follow nt := by
  unfold predictionSet
  split <;> simp [*]

/-- The sets by what is in them: an alternative of the expanded rule claims what it begins with, and
what can follow the nonterminal if it counts as deriving the empty word. -/
theorem mem_getD_predictionSets {g : Grammar} {a : Analysis} {nt i x : Nat} :
    x ∈ (predictionSets g a nt).getD i .empty ↔ nt < g.nonterminals.size ∧
      ∃ rule alternative, g.expandedRule? nt = some rule ∧ rule.alternatives[i]? = some alternative ∧
        (x ∈ a.firstOf alternative ∨ a.isNullable alternative = true ∧ x ∈ a.follow nt) := by
  rw [List.getD_eq_getElem?_getD, predictionSets]
  by_cases hnt : nt < g.nonterminals.size
  · rw [if_pos hnt, List.getElem?_map, alternativesOf]
    cases hrule : g.expandedRule? nt with
    | none => simp
    | some rule =>
        cases halternative : rule.alternatives[i]? with
        | none => simp [halternative]
        | some alternative => simp [halternative, hnt, mem_predictionSet]
  · rw [if_neg hnt]
    simp [hnt]

/-- The numbers of the sets that a lookahead is in, in ascending order. -/
def claimants (sets : List LookaheadSet) (lookahead : Lookahead) : List Nat :=
  (List.range sets.length).filter fun i => (sets.getD i .empty).contains lookahead.slot

def claimedLookaheads (sets : List LookaheadSet) : Finset Lookahead :=
  (sets.flatMap LookaheadSet.members).toFinset

section

variable {sets : List LookaheadSet} {lookahead : Lookahead} {i : Nat}

theorem mem_claimants : i ∈ claimants sets lookahead ↔ lookahead.slot ∈ sets.getD i .empty := by
  unfold claimants
  rw [List.mem_filter, List.mem_range, NumberSet.contains_iff]
  refine ⟨And.right, fun h => ⟨?_, h⟩⟩
  by_contra hge
  rw [List.getD_eq_default _ _ (by omega)] at h
  exact NumberSet.not_mem_empty _ h

theorem mem_claimants_iff_getElem? : i ∈ claimants sets lookahead ↔
    ∃ set, sets[i]? = some set ∧ lookahead.slot ∈ set := by
  rw [mem_claimants, List.getD_eq_getElem?_getD]
  cases sets[i]? with
  | none => simp
  | some set => simp

theorem pairwise_claimants (sets : List LookaheadSet) (lookahead : Lookahead) :
    (claimants sets lookahead).Pairwise (· < ·) :=
  List.pairwise_lt_range.filter _

theorem lt_of_mem_claimants (h : i ∈ claimants sets lookahead) : i < sets.length :=
  List.mem_range.1 (List.mem_of_mem_filter h)

/-- One more set adds its number where it claims something. -/
theorem claimants_concat (sets : List LookaheadSet) (set : LookaheadSet) (lookahead : Lookahead) :
    claimants (sets ++ [set]) lookahead
      = claimants sets lookahead ++ if lookahead.slot ∈ set then [sets.length] else [] := by
  have hold : ∀ i ∈ List.range sets.length, (sets ++ [set]).getD i .empty = sets.getD i .empty := by
    intro i hi
    exact List.getD_append _ _ _ _ (List.mem_range.1 hi)
  have hnew : (sets ++ [set]).getD sets.length .empty = set := by
    simp [List.getD_eq_getElem?_getD]
  rw [claimants, List.length_append, List.length_singleton, List.range_succ, List.filter_append]
  congr 1
  · exact List.filter_congr fun i hi => by rw [hold i hi]
  · rw [List.filter_singleton, hnew]
    simp

/-- The last claimant is the greatest one. -/
theorem getLast?_claimants_eq_some_iff : (claimants sets lookahead).getLast? = some i ↔
    IsGreatest {i | lookahead.slot ∈ sets.getD i .empty} i := by
  have hmem : ∀ j, lookahead.slot ∈ sets.getD j .empty ↔ j ∈ claimants sets lookahead :=
    fun j => mem_claimants.symm
  simp only [IsGreatest, upperBounds, Set.mem_ofPred_eq, hmem]
  have hsorted := pairwise_claimants sets lookahead
  constructor
  · intro h
    obtain ⟨rest, hrest⟩ := List.getLast?_eq_some_iff.1 h
    rw [hrest] at hsorted ⊢
    refine ⟨by simp, fun j hj => ?_⟩
    rcases List.mem_append.1 hj with hj | hj
    · exact Nat.le_of_lt ((List.pairwise_append.1 hsorted).2.2 j hj i (by simp))
    · exact Nat.le_of_eq (List.mem_singleton.1 hj)
  · rintro ⟨hi, hgreatest⟩
    obtain ⟨last, hlast⟩ := Option.ne_none_iff_exists'.1 fun hnone =>
      List.ne_nil_of_mem hi (List.getLast?_eq_none_iff.1 hnone)
    obtain ⟨rest, hrest⟩ := List.getLast?_eq_some_iff.1 hlast
    have hle : last ≤ i := hgreatest (by rw [hrest]; simp)
    rw [hlast]
    rw [hrest] at hsorted hi
    rcases List.mem_append.1 hi with hi | hi
    · have := (List.pairwise_append.1 hsorted).2.2 i hi last (by simp)
      omega
    · rw [List.mem_singleton.1 hi]

theorem getLast?_claimants_eq_none_iff : (claimants sets lookahead).getLast? = none ↔
    ∀ i, ¬ lookahead.slot ∈ sets.getD i .empty := by
  rw [List.getLast?_eq_none_iff, List.eq_nil_iff_forall_not_mem]
  exact forall_congr' fun i => not_congr mem_claimants

/-- At most one set holds a lookahead just if no two of them do. -/
theorem length_claimants_le_one_iff : (claimants sets lookahead).length ≤ 1 ↔
    ∀ i j, i < j → lookahead.slot ∈ sets.getD i .empty → ¬ lookahead.slot ∈ sets.getD j .empty := by
  have hmem : ∀ j, lookahead.slot ∈ sets.getD j .empty ↔ j ∈ claimants sets lookahead :=
    fun j => mem_claimants.symm
  simp only [hmem]
  have hsorted := pairwise_claimants sets lookahead
  match claimants sets lookahead, hsorted with
  | [], _ => simp
  | [only], _ =>
      refine ⟨fun _ i j hlt hi hj => ?_, fun _ => Nat.le_refl 1⟩
      rw [List.mem_singleton.1 hi, List.mem_singleton.1 hj] at hlt
      omega
  | first :: second :: rest, hsorted =>
      have hlt : first < second := (List.pairwise_cons.1 hsorted).1 second (by simp)
      refine ⟨fun h => ?_, fun h => absurd (by simp) (h first second hlt (by simp))⟩
      simp only [List.length_cons] at h
      omega

theorem mem_claimedLookaheads : lookahead ∈ claimedLookaheads sets ↔
    ∃ i, lookahead.slot ∈ sets.getD i .empty := by
  have hset : ∀ set : LookaheadSet, lookahead ∈ LookaheadSet.members set ↔ lookahead.slot ∈ set := by
    intro set
    rw [LookaheadSet.members, List.mem_map]
    constructor
    · rintro ⟨n, hn, rfl⟩
      rw [Lookahead.slot_ofSlot]
      exact hn
    · intro h
      exact ⟨_, h, Lookahead.ofSlot_slot lookahead⟩
  simp only [claimedLookaheads, List.mem_toFinset, List.mem_flatMap, hset]
  constructor
  · rintro ⟨set, hset, h⟩
    obtain ⟨i, hi⟩ := List.mem_iff_getElem?.1 hset
    exact ⟨i, mem_claimants.1 (mem_claimants_iff_getElem?.2 ⟨set, hi, h⟩)⟩
  · rintro ⟨i, h⟩
    obtain ⟨set, hi, hslot⟩ := mem_claimants_iff_getElem?.1 (mem_claimants.2 h)
    exact ⟨set, List.mem_of_getElem? hi, hslot⟩

end

/-! ### The claims of one alternative -/

section

variable {nt k : Nat} {state : Cells × List Conflict}

theorem lookup_claim (k slot x : Nat) :
    (claim nt k state slot).1.lookup x = if x = slot then some k else state.1.lookup x := by
  obtain ⟨cells, conflicts⟩ := state
  rw [← lookup_enter]
  simp only [claim]
  split <;> rfl

/-- The conflict that a claim leads to, if the cell was filled. -/
def conflictAt (nt k : Nat) (cells : Cells) (slot : Nat) : Option Conflict :=
  (cells.lookup slot).map fun earlier => ⟨nt, .ofSlot slot, earlier, k⟩

theorem conflicts_claim {slot : Nat} (h : state.1.lookup slot ≠ some k) :
    (claim nt k state slot).2 = state.2 ++ (conflictAt nt k state.1 slot).toList := by
  obtain ⟨cells, conflicts⟩ := state
  unfold claim conflictAt
  cases hlookup : List.lookup slot cells with
  | none => simp [hlookup]
  | some earlier =>
      have hne : earlier ≠ k := fun heq => h (by rw [← heq]; exact hlookup)
      simp [hlookup, hne]

/-- **What one alternative does to a row.**  It takes every cell that it claims, and each of them that was
filled before costs a conflict. -/
theorem enterSet_eq (nt : Nat) (slots : List Nat) : ∀ state : Cells × List Conflict, slots.Nodup →
    (∀ x ∈ slots, state.1.lookup x ≠ some k) →
    (∀ x, (slots.foldl (claim nt k) state).1.lookup x
      = if x ∈ slots then some k else state.1.lookup x) ∧
    (slots.foldl (claim nt k) state).2
      = state.2 ++ slots.filterMap (conflictAt nt k state.1) := by
  induction slots with
  | nil =>
      intro state _ _
      simp
  | cons slot slots ih =>
      intro state hnodup hnew
      obtain ⟨hslot, hnodup⟩ := List.nodup_cons.1 hnodup
      -- the cells of the slots that are still to come are as they were
      have hsame : ∀ x ∈ slots, (claim nt k state slot).1.lookup x = state.1.lookup x := by
        intro x hx
        rw [lookup_claim, if_neg]
        rintro rfl
        exact hslot hx
      have hnext : ∀ x ∈ slots, (claim nt k state slot).1.lookup x ≠ some k := by
        intro x hx
        rw [hsame x hx]
        exact hnew x (List.mem_cons_of_mem _ hx)
      obtain ⟨hcells, hconflicts⟩ := ih (claim nt k state slot) hnodup hnext
      rw [List.foldl_cons]
      refine ⟨fun x => ?_, ?_⟩
      · rw [hcells, lookup_claim]
        by_cases hx : x = slot
        · simp [hx]
        · simp [hx]
      · have hrest : slots.filterMap (conflictAt nt k (claim nt k state slot).1)
            = slots.filterMap (conflictAt nt k state.1) :=
          List.filterMap_congr fun x hx => by rw [conflictAt, conflictAt, hsame x hx]
        rw [hconflicts, hrest, conflicts_claim (hnew slot (List.mem_cons_self ..)), List.append_assoc,
          List.filterMap_cons]
        cases conflictAt nt k state.1 slot <;> rfl

/-! ### The claims of all alternatives -/

def conflictsOn (lookahead : Lookahead) (conflicts : List Conflict) : Nat :=
  (conflicts.map Conflict.lookahead).count lookahead

/-- One alternative adds a conflict about a lookahead if it claims it and the cell was filled. -/
theorem conflictsOn_filterMap {slots : List Nat} (hnodup : slots.Nodup) (cells : Cells)
    (lookahead : Lookahead) : conflictsOn lookahead (slots.filterMap (conflictAt nt k cells))
      = if lookahead.slot ∈ slots ∧ cells.lookup lookahead.slot ≠ none then 1 else 0 := by
  -- the lookaheads of the conflicts are those slots whose cells were filled
  have hlookaheads : (slots.filterMap (conflictAt nt k cells)).map Conflict.lookahead
      = (slots.filter fun slot => decide (cells.lookup slot ≠ none)).map Lookahead.ofSlot := by
    induction slots with
    | nil => rfl
    | cons slot slots ih =>
        have hrest := ih (List.nodup_cons.1 hnodup).2
        rw [List.filterMap_cons, List.filter_cons, conflictAt]
        cases hlookup : cells.lookup slot with
        | none => simpa using hrest
        | some earlier => simpa using hrest
  have hmem : lookahead ∈ (slots.filter fun slot => decide (cells.lookup slot ≠ none)).map
      Lookahead.ofSlot ↔ lookahead.slot ∈ slots ∧ cells.lookup lookahead.slot ≠ none := by
    rw [List.mem_map]
    constructor
    · rintro ⟨slot, hslot, rfl⟩
      rw [Lookahead.slot_ofSlot]
      simpa using List.mem_filter.1 hslot
    · intro h
      exact ⟨lookahead.slot, List.mem_filter.2 (by simpa using h), Lookahead.ofSlot_slot lookahead⟩
  have hinjective : Function.Injective Lookahead.ofSlot :=
    Function.LeftInverse.injective Lookahead.slot_ofSlot
  rw [conflictsOn, hlookaheads, ((hnodup.filter _).map hinjective).count]
  simp only [hmem]

/-- What holds of a row when alternatives have made the claims of some sets. -/
structure Tallied (nt : Nat) (sets : List LookaheadSet) (state : Cells × List Conflict) : Prop where
  cell : ∀ a : Lookahead, state.1.lookup a.slot = (claimants sets a).getLast?
  count : ∀ a : Lookahead, conflictsOn a state.2 = (claimants sets a).length - 1
  conflict : ∀ c ∈ state.2, c.nonterminal = nt ∧ c.earlier < c.later ∧
    c.earlier ∈ claimants sets c.lookahead ∧ c.later ∈ claimants sets c.lookahead

theorem tallied_nil (nt : Nat) : Tallied nt [] ([], []) where
  cell a := rfl
  count a := rfl
  conflict c hc := by cases hc

/-- **The claims of one more alternative.** -/
theorem tallied_enterSet {sets : List LookaheadSet} (h : Tallied nt sets state) (set : LookaheadSet) :
    Tallied nt (sets ++ [set]) (set.toList.foldl (claim nt sets.length) state) := by
  have hnodup : set.toList.Nodup := set.ascending.imp fun hlt => Nat.ne_of_lt hlt
  have hearlier : ∀ (a : Lookahead) i, state.1.lookup a.slot = some i → i ∈ claimants sets a := by
    intro a i hi
    rw [h.cell] at hi
    exact List.mem_of_getLast? hi
  have hnew : ∀ x ∈ set.toList, state.1.lookup x ≠ some sets.length := by
    intro x _ hx
    rw [← Lookahead.slot_ofSlot x] at hx
    exact Nat.lt_irrefl _ (lt_of_mem_claimants (hearlier _ _ hx))
  obtain ⟨hcells, hconflicts⟩ := enterSet_eq nt set.toList state hnodup hnew
  refine ⟨fun a => ?_, fun a => ?_, fun c hc => ?_⟩
  · rw [hcells, h.cell, claimants_concat]
    by_cases ha : a.slot ∈ set
    · rw [if_pos (NumberSet.mem_def.1 ha), if_pos ha, List.getLast?_concat]
    · rw [if_neg (mt NumberSet.mem_def.2 ha), if_neg ha, List.append_nil]
  · rw [hconflicts, claimants_concat]
    have hadd : conflictsOn a (state.2 ++ set.toList.filterMap (conflictAt nt sets.length state.1))
        = conflictsOn a state.2
          + conflictsOn a (set.toList.filterMap (conflictAt nt sets.length state.1)) := by
      simp only [conflictsOn, List.map_append, List.count_append]
    have hfilled : state.1.lookup a.slot ≠ none ↔ 0 < (claimants sets a).length := by
      rw [h.cell, Ne, List.getLast?_eq_none_iff, List.length_pos_iff]
    rw [hadd, h.count, conflictsOn_filterMap hnodup]
    simp only [hfilled, ← NumberSet.mem_def]
    by_cases ha : a.slot ∈ set
    · simp only [ha, if_true, true_and, List.length_append, List.length_singleton]
      split <;> omega
    · simp only [ha, if_false, false_and, List.append_nil, Nat.add_zero]
  · rw [hconflicts] at hc
    rcases List.mem_append.1 hc with hc | hc
    · obtain ⟨hnt, hlt, hearly, hlate⟩ := h.conflict c hc
      simp only [claimants_concat, List.mem_append]
      exact ⟨hnt, hlt, Or.inl hearly, Or.inl hlate⟩
    · obtain ⟨slot, hslot, hconflict⟩ := List.mem_filterMap.1 hc
      obtain ⟨earlier, hfound, rfl⟩ := Option.map_eq_some_iff.1 hconflict
      rw [← Lookahead.slot_ofSlot slot] at hfound hslot
      have hmem := hearlier _ _ hfound
      have hset : (Lookahead.ofSlot slot).slot ∈ set := hslot
      simp only [claimants_concat, List.mem_append, hmem, hset, if_true, List.mem_singleton, true_or,
        or_true, and_true, true_and]
      exact lt_of_mem_claimants hmem

end

theorem claimAll_concat (a : Analysis) (nt : Nat) (alternatives : List Rule) (alternative : Rule) :
    claimAll a nt (alternatives ++ [alternative])
      = (predictionSet a nt alternative).toList.foldl (claim nt alternatives.length)
          (claimAll a nt alternatives) := by
  rw [claimAll, List.zipIdx_append, List.foldl_append, Nat.zero_add]
  rfl

/-- The row of a nonterminal after the claims of all alternatives. -/
theorem tallied_claimAll (a : Analysis) (nt : Nat) (alternatives : List Rule) :
    Tallied nt (alternatives.map (predictionSet a nt)) (claimAll a nt alternatives) := by
  induction alternatives using List.reverseRecOn with
  | nil => exact tallied_nil nt
  | append_singleton alternatives alternative ih =>
      have hstep := tallied_enterSet ih (predictionSet a nt alternative)
      rw [List.length_map] at hstep
      rw [claimAll_concat, List.map_append]
      exact hstep

/-! ### Tables -/

variable {g : Grammar} {a : Analysis} {nt : Nat}

theorem getD_rows (hnt : nt < g.nonterminals.size) :
    (ofAnalysis g a).rows.getD nt {} = (rowOf g a nt).1 := by
  rw [Array.getD_eq_getD_getElem?]
  simp only [ofAnalysis, SymbolTable.ids, List.map_map, List.getElem?_toArray, List.getElem?_map,
    List.getElem?_range hnt, Option.map_some, Function.comp, Option.getD_some]

theorem tallied_rowOf (hnt : nt < g.nonterminals.size) :
    Tallied nt (predictionSets g a nt) ((rowOf g a nt).1.cells, (rowOf g a nt).2) := by
  rw [predictionSets, if_pos hnt]
  exact tallied_claimAll a nt (alternativesOf g nt)

/-- A cell of a table holds the last alternative that claims it. -/
theorem get?_ofAnalysis (g : Grammar) (a : Analysis) (nt : Nat) (lookahead : Lookahead) :
    (ofAnalysis g a).get? nt lookahead = (claimants (predictionSets g a nt) lookahead).getLast? := by
  by_cases hnt : nt < g.nonterminals.size
  · rw [get?, getD_rows hnt]
    exact (tallied_rowOf hnt).cell lookahead
  · have hrows : (ofAnalysis g a).rows.size = g.nonterminals.size := by
      simp [ofAnalysis, SymbolTable.ids]
    rw [get?, Array.getD_eq_getD_getElem?, Array.getElem?_eq_none (by omega), predictionSets,
      if_neg hnt]
    rfl

/-- In a row, all claims of a lookahead but the first one have cost a conflict. -/
theorem Tallied.length_conflicts {sets : List LookaheadSet} {state : Cells × List Conflict}
    (h : Tallied nt sets state) : state.2.length
      = ∑ lookahead ∈ claimedLookaheads sets, ((claimants sets lookahead).length - 1) := by
  have hmem : ∀ lookahead ∈ (state.2.map Conflict.lookahead : Multiset Lookahead),
      lookahead ∈ claimedLookaheads sets := by
    intro lookahead hlookahead
    obtain ⟨c, hc, rfl⟩ := List.mem_map.1 (Multiset.mem_coe.1 hlookahead)
    exact mem_claimedLookaheads.2 ⟨c.later, mem_claimants.1 (h.conflict c hc).2.2.2⟩
  have hsum := Multiset.sum_count_eq_card hmem
  rw [Multiset.coe_card, List.length_map] at hsum
  rw [← hsum]
  refine Finset.sum_congr rfl fun lookahead _ => ?_
  rw [Multiset.coe_count]
  exact h.count lookahead

/-- The number of conflicts of a table. -/
theorem length_conflicts (g : Grammar) (a : Analysis) : (ofAnalysis g a).conflicts.length
    = ∑ nt ∈ Finset.range g.nonterminals.size,
        ∑ lookahead ∈ claimedLookaheads (predictionSets g a nt),
          ((claimants (predictionSets g a nt) lookahead).length - 1) := by
  have hrows : (ofAnalysis g a).conflicts.length
      = ∑ nt ∈ Finset.range g.nonterminals.size, (rowOf g a nt).2.length := by
    show ((g.nonterminals.ids.map (rowOf g a)).flatMap Prod.snd).length = _
    rw [List.length_flatMap, List.map_map]
    rfl
  rw [hrows]
  refine Finset.sum_congr rfl fun nt hnt => ?_
  exact (tallied_rowOf (Finset.mem_range.1 hnt)).length_conflicts

/-- A conflict is between two alternatives that claim its lookahead. -/
theorem mem_claimants_of_mem_conflicts {c : Conflict} (hc : c ∈ (ofAnalysis g a).conflicts) :
    c.nonterminal < g.nonterminals.size ∧ c.earlier < c.later ∧
      c.earlier ∈ claimants (predictionSets g a c.nonterminal) c.lookahead ∧
      c.later ∈ claimants (predictionSets g a c.nonterminal) c.lookahead := by
  obtain ⟨row, hrow, hc⟩ := List.mem_flatMap.1 hc
  obtain ⟨nt, hnt, rfl⟩ := List.mem_map.1 hrow
  have hnt : nt < g.nonterminals.size := List.mem_range.1 hnt
  obtain ⟨rfl, hlt, hearlier, hlater⟩ := (tallied_rowOf hnt).conflict c hc
  exact ⟨hnt, hlt, hearlier, hlater⟩

/-- There are no conflicts just if no lookahead of a nonterminal is claimed twice. -/
theorem isLL1_iff : (ofAnalysis g a).isLL1 = true ↔
    ∀ nt lookahead, (claimants (predictionSets g a nt) lookahead).length ≤ 1 := by
  rw [isLL1, List.isEmpty_iff, ← List.length_eq_zero_iff, length_conflicts, Finset.sum_eq_zero_iff]
  simp only [Finset.sum_eq_zero_iff, Finset.mem_range]
  constructor
  · intro h nt lookahead
    by_contra hlt
    -- a lookahead with a claimant is claimed, and its nonterminal is in the table
    obtain ⟨i, hi⟩ := List.exists_mem_of_length_pos
      (show 0 < (claimants (predictionSets g a nt) lookahead).length by omega)
    have hmem := mem_claimants.1 hi
    have hzero := h nt (mem_getD_predictionSets.1 hmem).1 lookahead
      (mem_claimedLookaheads.2 ⟨i, hmem⟩)
    omega
  · intro h nt _ lookahead _
    have hle := h nt lookahead
    omega

/-- **A table describes the prediction sets exactly.**  The set of an alternative of an expanded rule has
the lookaheads it begins with, and those that can follow the nonterminal if it counts as nullable.  A cell
holds the greatest alternative whose set has its lookahead, and is empty if there is none; every further
alternative with the same lookahead has cost one conflict; and there are no conflicts just if the sets of
different alternatives are disjoint.  This holds for any analysis, and so of the table that is built from
the grammar alone. -/
theorem table_describes_predictionSets (g : Grammar) (a : Analysis) :
    (∀ nt i x, x ∈ (predictionSets g a nt).getD i .empty ↔ nt < g.nonterminals.size ∧
        ∃ rule alternative, g.expandedRule? nt = some rule ∧
          rule.alternatives[i]? = some alternative ∧
          (x ∈ a.firstOf alternative ∨ a.isNullable alternative = true ∧ x ∈ a.follow nt)) ∧
      (∀ nt lookahead i, (ofAnalysis g a).get? nt lookahead = some i ↔
        IsGreatest {i | lookahead.slot ∈ (predictionSets g a nt).getD i .empty} i) ∧
      (∀ nt lookahead, (ofAnalysis g a).get? nt lookahead = none ↔
        ∀ i, ¬ lookahead.slot ∈ (predictionSets g a nt).getD i .empty) ∧
      (ofAnalysis g a).conflicts.length
        = ∑ nt ∈ Finset.range g.nonterminals.size,
            ∑ lookahead ∈ claimedLookaheads (predictionSets g a nt),
              ((claimants (predictionSets g a nt) lookahead).length - 1) ∧
      ((ofAnalysis g a).isLL1 = true ↔ ∀ nt i j, i < j →
        ((predictionSets g a nt).getD i .empty).disjoint ((predictionSets g a nt).getD j .empty)
          = true) := by
  refine ⟨fun _ _ _ => mem_getD_predictionSets, fun nt lookahead i => ?_, fun nt lookahead => ?_,
    length_conflicts g a, ?_⟩
  · rw [get?_ofAnalysis]
    exact getLast?_claimants_eq_some_iff
  · rw [get?_ofAnalysis]
    exact getLast?_claimants_eq_none_iff
  · simp only [isLL1_iff, length_claimants_le_one_iff, NumberSet.disjoint_iff]
    constructor
    · intro h nt i j hlt n hi
      have hslot := h nt (.ofSlot n) i j hlt
      rw [Lookahead.slot_ofSlot] at hslot
      exact hslot hi
    · intro h nt lookahead i j hlt hi
      exact h nt i j hlt lookahead.slot hi

end RuleGrammar.Prediction
