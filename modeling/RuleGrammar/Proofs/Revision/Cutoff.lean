import RuleGrammar.Proofs.Characters
import RuleGrammar.Proofs.Revision.Usefulness

/-!
# Useless rules when passes are cut short

The passes for productive nonterminals stop at a cap, converged or not, and the rules of what is not yet
flagged by then are taken away.  Doing so twice is doing it once: whatever a surviving rule was flagged
from has survived too, so each surviving nonterminal is flagged no later the second time, and the search
finds it again.  But a rule that is flagged too late is lost although it derives a word.

* `Follows`: flags of some nonterminals that are set in one run are set in another one; `follows_move`,
  `follows_sweep`, `follows_iterate`: a run over the rules of these nonterminals keeps up.
* `Useless.flag_again`, `Useless.mark_again`: what stays is flagged and reached again.
* `Useless.removeUseless_removeUseless`: a second removal finds nothing and changes nothing.
* `Useless.accepts_start_of_converged`: passes that converged keep the words of the start symbol.
* `Useless.ladder`: rules that need as many passes as there are rules; `Useless.ladder_loses_word`.
-/

namespace RuleGrammar

open Grammar FixedPoint

variable {g : Grammar} {keep : Nat → Bool} {final s t : Flags} {item : Nat × Rule}
  {items : List (Nat × Rule)} {m n count : Nat} {rule : Rule}

/-- A tree that counts as productive still does if no flag of its references is lost. -/
theorem Tree.productive_mono_on (h : ∀ n ∈ rule.references, s.getD n false = true → t.getD n false = true)
    (hrule : rule.productive s = true) : rule.productive t = true := by
  induction rule with
  | reference nt opened => exact h nt (List.mem_singleton_self nt) hrule
  | seq l r ihl ihr =>
      simp only [references, mentions, List.map_append, List.mem_append] at h
      simp only [productive, Bool.and_eq_true] at hrule ⊢
      exact ⟨ihl (fun n hn => h n (Or.inl hn)) hrule.1, ihr (fun n hn => h n (Or.inr hn)) hrule.2⟩
  | alt l r ihl ihr =>
      simp only [references, mentions, List.map_append, List.mem_append] at h
      simp only [productive, Bool.or_eq_true] at hrule ⊢
      exact hrule.imp (ihl fun n hn => h n (Or.inl hn)) (ihr fun n hn => h n (Or.inr hn))
  | _ => rfl

namespace Useless

/-! ### A run that keeps up with another one -/

/-- Flags of the nonterminals to keep that are set in the first place are set in the second. -/
def Follows (keep : Nat → Bool) (s t : Flags) : Prop :=
  ∀ n, keep n = true → s.getD n false = true → t.getD n false = true

/-- Of the rules to keep, the references that are flagged in the end are to be kept. -/
def ClosedUnder (keep : Nat → Bool) (final : Flags) (items : List (Nat × Rule)) : Prop :=
  ∀ item ∈ items, keep item.1 = true → ∀ n ∈ item.2.references, final.getD n false = true → keep n = true

theorem flagMove_productive_local (hitem : item.1 < count) :
    (flagView count).Local (flagMove Tree.productive item) :=
  flagMove_local hitem fun h => Tree.productive_congr h item.2

/-- A move flags a nonterminal whose rule is productive. -/
theorem flag_flagMove (hsize : t.size = count) (hitem : item.1 < count)
    (h : item.2.productive t = true) :
    (flagMove Tree.productive item t).1.getD item.1 false = true := by
  by_cases hold : t.getD item.1 false = true
  · exact (flagMove_productive_local hitem).grows (x := 0) hsize hold
  · rw [Bool.not_eq_true] at hold
    unfold flagMove
    rw [if_pos (by rw [hold, h]; rfl), getD_setIfInBounds (by omega), if_pos rfl]

/-- A move for a rule to keep is matched by the same move. -/
theorem follows_move (hsize : t.size = count) (hitem : item.1 < count)
    (hrefs : ∀ n ∈ item.2.references, s.getD n false = true → keep n = true) (h : Follows keep s t) :
    Follows keep (flagMove Tree.productive item s).1 (flagMove Tree.productive item t).1 := by
  intro n hn hflag
  rcases flag_of_flagMove_flag hflag with hold | ⟨rfl, htest⟩
  · exact (flagMove_productive_local hitem).grows (x := 0) hsize (h n hn hold)
  · apply flag_flagMove hsize hitem
    exact Tree.productive_mono_on (fun m hm hs => h m (hrefs m hm hs) hs) htest

/-- A move for any other rule need not be matched. -/
theorem follows_skip (hitem : ¬ keep item.1 = true) (h : Follows keep s t) :
    Follows keep (flagMove Tree.productive item s).1 t := by
  intro n hn hflag
  rcases flag_of_flagMove_flag hflag with hold | ⟨rfl, _⟩
  · exact h n hn hold
  · exact absurd hn hitem

/-- A pass over all rules is matched by a pass over the rules to keep. -/
theorem follows_sweep (hcount : ∀ item ∈ items, item.1 < count) (hclosed : ClosedUnder keep final items) :
    ∀ {s t : Flags}, s.size = count → t.size = count →
      (∀ n, (sweep (flagMove Tree.productive) items s).1.getD n false = true → final.getD n false = true) →
      Follows keep s t → Follows keep (sweep (flagMove Tree.productive) items s).1
        (sweep (flagMove Tree.productive) (items.filter fun item => keep item.1) t).1 := by
  induction items with
  | nil =>
      intro s t _ _ _ h
      exact h
  | cons item items ih =>
      intro s t hs ht hfinal h
      have hitem := hcount item (List.mem_cons_self ..)
      have hrest : ∀ other ∈ items, other.1 < count := fun other hmem =>
        hcount other (List.mem_cons_of_mem item hmem)
      have hlocal := flagMove_productive_local hitem
      rw [sweep_cons] at hfinal ⊢
      have hs' := hlocal.valid hs
      -- what is flagged now is flagged after this pass, and so in the end
      have hgrows : ∀ n, s.getD n false = true → final.getD n false = true := fun n hn =>
        hfinal n ((flagSweep_local Tree.productive_congr hrest).2.grows (x := 0) hs'
          (hlocal.grows (x := 0) hs hn))
      have hclosed' : ClosedUnder keep final items := fun other hmem =>
        hclosed other (List.mem_cons_of_mem item hmem)
      by_cases hkeep : keep item.1 = true
      · rw [List.filter_cons, if_pos hkeep, sweep_cons]
        apply ih hrest hclosed' hs' (hlocal.valid ht) hfinal
        apply follows_move ht hitem _ h
        exact fun n hn hflag => hclosed item (List.mem_cons_self ..) hkeep n hn (hgrows n hflag)
      · rw [List.filter_cons, if_neg hkeep]
        exact ih hrest hclosed' hs' ht hfinal (follows_skip hkeep h)

/-- Any number of passes over all rules is matched by as many passes over the rules to keep. -/
theorem follows_iterate (hcount : ∀ item ∈ items, item.1 < count) (hclosed : ClosedUnder keep final items)
    (k : Nat) : ∀ {s t : Flags}, s.size = count → t.size = count →
      (∀ n, ((fun s => (productivePass items s).1)^[k] s).getD n false = true →
        final.getD n false = true) →
      Follows keep s t → Follows keep ((fun s => (productivePass items s).1)^[k] s)
        ((fun s => (productivePass (items.filter fun item => keep item.1) s).1)^[k] t) := by
  simp only [productivePass_eq_sweep]
  have hlocal := (flagSweep_local Tree.productive_congr hcount).2
  have hlocal' : (flagView count).Local
      (sweep (flagMove Tree.productive) (items.filter fun item => keep item.1)) :=
    (flagSweep_local Tree.productive_congr fun item hmem => hcount item (List.mem_filter.1 hmem).1).2
  induction k with
  | zero =>
      intro s t _ _ _ h
      exact h
  | succ k ih =>
      intro s t hs ht hfinal h
      rw [Function.iterate_succ_apply] at hfinal ⊢
      rw [Function.iterate_succ_apply]
      apply ih (hlocal.valid hs) (hlocal'.valid ht) hfinal
      apply follows_sweep hcount hclosed hs ht _ h
      exact fun n hn => hfinal n (hlocal.grows_iterate (x := 0) k (hlocal.valid hs) hn)

/-! ### A second removal -/

theorem productive_value_eq_iterate (g : Grammar) : (productive g).value =
    (fun s => (productivePass g.ownedRules s).1)^[maxPasses] (Array.replicate g.nonterminals.size false) :=
  (productivePass_local g).run_value_eq_iterate maxPasses Array.size_replicate

/-- The rules that stay are those of marked nonterminals, in the order in which they were. -/
theorem ownedRules_removeUseless (g : Grammar) : (removeUseless g).grammar.ownedRules =
    g.ownedRules.filter fun item => (marks g).getD item.1 false := by
  unfold ownedRules
  rw [(thins_removeUseless g).nonterminals, List.filter_filterMap]
  apply List.filterMap_congr
  intro m hm
  have hlt : m < g.nonterminals.size := List.mem_range.1 hm
  rw [rule?_removeUseless_of_marks]
  cases hmark : (marks g).getD m false with
  | false => cases g.rule? m <;> simp [hlt, Option.filter, hmark]
  | true => cases g.rule? m <;> simp [Option.filter, hmark]

/-- **What stays is flagged again**, however few passes are made. -/
theorem flag_again (h : (marks g).getD n false = true) :
    (productive (removeUseless g).grammar).value.getD n false = true := by
  have hclosed : ClosedUnder (fun n => (marks g).getD n false) (productive g).value g.ownedRules := by
    intro item hitem hmark n hn hflag
    exact mark_of_reference hmark (mem_ownedRules.1 hitem).2 hn hflag
  have hfollows := follows_iterate lt_of_mem_ownedRules hclosed maxPasses
    (s := Array.replicate g.nonterminals.size false) (t := Array.replicate g.nonterminals.size false)
    Array.size_replicate Array.size_replicate
    (by rw [← productive_value_eq_iterate]; exact fun _ hflag => hflag) (fun _ _ hflag => hflag)
  rw [productive_value_eq_iterate, ownedRules_removeUseless, (thins_removeUseless g).nonterminals]
  apply hfollows n h
  rw [← productive_value_eq_iterate]
  exact flag_of_mark h

theorem mark_of_hasRule (hm : m < g.nonterminals.size) (h : (removeUseless g).grammar.hasRule m = true) :
    (marks g).getD m false = true := by
  by_contra hmark
  rw [hasRule, rule?_removeUseless_of_marks, if_pos ⟨hm, hmark⟩] at h
  cases h

/-- Where every owner of a rule in the table is marked, nothing is taken away. -/
theorem unmarked_eq_nil {marks : Flags}
    (h : ∀ m < g.nonterminals.size, g.hasRule m = true → marks.getD m false = true) :
    unmarked g marks = [] := by
  rw [List.eq_nil_iff_forall_not_mem]
  intro m hm
  rw [mem_unmarked_iff] at hm
  exact hm.2.2 (h m hm.1 hm.2.1)

theorem clearUnmarked_eq_self {marks : Flags} (h : unmarked g marks = []) :
    (clearUnmarked g marks).grammar = g := by
  show (unmarked g marks).foldl takeRule g = g
  rw [h]
  rfl

/-- In what stays, every owner of a rule is flagged. -/
theorem unmarked_again (g : Grammar) :
    unmarked (removeUseless g).grammar (productive (removeUseless g).grammar).value = [] := by
  apply unmarked_eq_nil
  intro m hm h
  rw [(thins_removeUseless g).nonterminals] at hm
  exact flag_again (mark_of_hasRule hm h)

theorem marks_again (g : Grammar) : marks (removeUseless g).grammar =
    reachable (removeUseless g).grammar (productive (removeUseless g).grammar).value := by
  rw [marks, clearUnmarked_eq_self (unmarked_again g)]

/-- The second search begins where the first one began. -/
theorem root?_again {root : Nat}
    (h : root? (clearUnmarked g (productive g).value).grammar (productive g).value = some root) :
    root? (removeUseless g).grammar (productive (removeUseless g).grammar).value = some root := by
  have hmark : (marks g).getD root false = true := reachable_root h
  rw [root?_eq_some_iff, nonterminals_clearUnmarked] at h
  obtain ⟨hlt, ⟨howns, _⟩, hleast⟩ := h
  -- a marked nonterminal has the same rule in all three grammars
  have hsame : ∀ m, (marks g).getD m false = true → (removeUseless g).grammar.hasRule m =
      (clearUnmarked g (productive g).value).grammar.hasRule m := by
    intro m hm
    rw [hasRule, hasRule, rule?_removeUseless_of_marks, rule?_clearUnmarked,
      if_neg fun hnot => hnot.2 hm, if_neg fun hnot => hnot.2 (flag_of_mark hm)]
  rw [root?_eq_some_iff, (thins_removeUseless g).nonterminals]
  refine ⟨hlt, ⟨by rw [hsame root hmark]; exact howns, flag_again hmark⟩, fun m hm hrule => ?_⟩
  have hmarked := mark_of_hasRule (hm.trans hlt) hrule
  rw [hsame m hmarked] at hrule
  have hunflagged := hleast m hm hrule
  rw [flag_of_mark hmarked] at hunflagged
  cases hunflagged

/-- **What stays is reached again.**  Both marks are carried along the first search. -/
theorem mark_again (h : (marks g).getD n false = true) :
    (marks (removeUseless g).grammar).getD n false = true := by
  refine (reachable_sound (P := fun n => (marks g).getD n false = true ∧
    (marks (removeUseless g).grammar).getD n false = true) (fun root hroot => ?_) ?_ h).2
  · refine ⟨reachable_root hroot, ?_⟩
    rw [marks_again]
    exact reachable_root (root?_again hroot)
  · intro m rule n hm hrule hn hflag
    have hold : g.rule? m = some rule := (foldl_takeRule_spec (unmarked g _) g).1.rule hrule
    have hmark := mark_of_reference hm.1 hold (List.mem_eraseDups.1 hn) hflag
    have hkept : (removeUseless g).grammar.rule? m = some rule := by
      rw [rule?_removeUseless_of_marks, if_neg fun hnot => hnot.2 hm.1]
      exact hold
    exact ⟨hmark, mark_of_reference hm.2 hkept (List.mem_eraseDups.1 hn) (flag_again hmark)⟩

/-- In what stays, every owner of a rule is reached. -/
theorem unmarked_marks_again (g : Grammar) :
    unmarked (removeUseless g).grammar (marks (removeUseless g).grammar) = [] := by
  apply unmarked_eq_nil
  intro m hm h
  rw [(thins_removeUseless g).nonterminals] at hm
  exact mark_again (mark_of_hasRule hm h)

/-- What is found: the owners of rules that are not flagged, then those that are not reached. -/
theorem result_removeUseless (g : Grammar) : (removeUseless g).result =
    unmarked g (productive g).value ++
      unmarked (clearUnmarked g (productive g).value).grammar (marks g) := rfl

theorem grammar_removeUseless (g : Grammar) : (removeUseless g).grammar =
    (clearUnmarked (clearUnmarked g (productive g).value).grammar (marks g)).grammar := rfl

/-- **A second removal finds nothing and changes nothing**, for every grammar of any size, converged or
not. -/
theorem removeUseless_removeUseless (g : Grammar) :
    (removeUseless (removeUseless g).grammar).result = [] ∧
      (removeUseless (removeUseless g).grammar).grammar = (removeUseless g).grammar := by
  have hflagged := unmarked_again g
  have hreached := unmarked_marks_again g
  have hsame := clearUnmarked_eq_self hflagged
  constructor
  · rw [result_removeUseless (removeUseless g).grammar, hsame, hflagged, hreached, List.append_nil]
  · rw [grammar_removeUseless (removeUseless g).grammar, hsame]
    exact clearUnmarked_eq_self hreached

/-! ### Words of the start symbol -/

/-- **Passes that converged keep the words of the start symbol**, whatever their number. -/
theorem accepts_start_of_converged (hg : g.WellFormed) (hconv : (productive g).converged = true)
    (hstart : g.start? = some n) (w : Word) :
    (removeUseless g).grammar.accepts n w = g.accepts n w := by
  have hzero := (start?_eq_some_iff.1 hstart).1
  rw [hzero, Bool.eq_iff_iff, accepts_iff, accepts_iff]
  exact language_removeUseless hg hconv

/-! ### Rules that are flagged too late -/

/-- The rule of a rung: the lowest one has a letter of its own beside the next rung, the highest one has
another letter, and all others have what the next rung has. -/
def rung (top i : Nat) : Rule :=
  if i = 0 then .alt (.terminal 1) (.reference 1 false)
  else if i < top then .reference (i + 1) false
  else .terminal 2

theorem distinct_letters : #["", "a", "b"].toList.Nodup := by decide

/-- Rungs from zero up to a top, each of which is known to derive a word of the highest one only when the
next rung is. -/
def ladder (top : Nat) : Grammar where
  terminals := ⟨#["", "a", "b"], distinct_letters⟩
  nonterminals := ⟨((List.range (top + 1)).map (SymbolTable.candidate "N")).toArray,
    List.nodup_range.map fun _ _ => SymbolTable.candidate_injective "N"⟩
  semantics := SymbolTable.empty
  macros := SymbolTable.empty
  rules := ((List.range (top + 1)).map fun i => some (rung top i)).toArray
  emptyName := rfl

variable {top i k : Nat}

theorem size_ladder (top : Nat) : (ladder top).nonterminals.size = top + 1 := by
  simp [ladder, SymbolTable.size]

theorem rule?_ladder (top i : Nat) :
    (ladder top).rule? i = if i < top + 1 then some (rung top i) else none := by
  simp only [ladder, rule?, List.getElem?_toArray, List.getElem?_map]
  split <;> simp_all

theorem rule?_ladder_eq_some_iff : (ladder top).rule? i = some rule ↔ i < top + 1 ∧ rung top i = rule := by
  rw [rule?_ladder]
  split <;> simp_all

theorem wellFormed_ladder (htop : 0 < top) : (ladder top).WellFormed := by
  have hsize := size_ladder top
  refine ⟨fun hrule => ?_, fun {i rule} hrule => ?_⟩
  · rw [hsize]
    exact (rule?_ladder_eq_some_iff.1 hrule).1
  · rw [← (rule?_ladder_eq_some_iff.1 hrule).2]
    unfold rung
    split
    · show 1 < 3 ∧ 1 < (ladder top).nonterminals.size
      omega
    · split
      · show i + 1 < (ladder top).nonterminals.size
        omega
      · show 2 < 3
        omega

/-- Every rung but the lowest has the word of the highest one. -/
theorem language_ladder (k : Nat) : ∀ {i : Nat}, 0 < i → i + k = top → (ladder top).Language i [2] := by
  induction k with
  | zero =>
      intro i hpos htop
      refine language_iff.2 ⟨by rw [size_ladder]; omega, _, rule?_ladder_eq_some_iff.2 ⟨by omega, rfl⟩, ?_⟩
      rw [rung, if_neg (by omega), if_neg (by omega)]
      exact .terminal (by decide)
  | succ k ih =>
      intro i hpos htop
      refine language_iff.2 ⟨by rw [size_ladder]; omega, _, rule?_ladder_eq_some_iff.2 ⟨by omega, rfl⟩, ?_⟩
      rw [rung, if_neg (by omega), if_pos (by omega)]
      exact ih (Nat.succ_pos i) (by omega)

/-- The lowest rung has it too. -/
theorem language_ladder_zero (htop : 0 < top) : (ladder top).Language 0 [2] := by
  refine language_iff.2 ⟨by rw [size_ladder]; omega, _, rule?_ladder_eq_some_iff.2 ⟨by omega, rfl⟩, ?_⟩
  rw [rung, if_pos rfl]
  exact .altRight (language_ladder (top - 1) Nat.one_pos (by omega))

/-- A rung counts as productive if it is the lowest or the highest one or if the next one is flagged. -/
theorem productive_rung (h : (rung top i).productive s = true) :
    i = 0 ∨ top ≤ i ∨ s.getD (i + 1) false = true := by
  unfold rung at h
  split at h
  · exact Or.inl ‹_›
  · split at h
    · exact Or.inr (Or.inr h)
    · exact Or.inr (Or.inl (by omega))

/-- After some passes only so many rungs from the top are flagged, and the lowest one. -/
def Late (top k : Nat) (s : Flags) : Prop := ∀ i, s.getD i false = true → i = 0 ∨ top < i + k

/-- **One pass goes down one rung.**  Rungs are looked at from the lowest one up, so what this pass flags
has the rung below it behind it: it is below all rungs that are still to be looked at. -/
theorem late_sweep (hrungs : ∀ item ∈ items, item.2 = rung top item.1)
    (hitems : items.Pairwise fun a b => a.1 < b.1) : ∀ {s : Flags},
    (∀ i, s.getD i false = true → i = 0 ∨ top < i + k ∨
      top < i + (k + 1) ∧ ∀ item ∈ items, i < item.1) →
    Late top (k + 1) (sweep (flagMove Tree.productive) items s).1 := by
  induction items with
  | nil =>
      intro s hs i hi
      have hcases := hs i hi
      omega
  | cons item items ih =>
      intro s hs
      rw [List.pairwise_cons] at hitems
      rw [sweep_cons]
      apply ih (fun other hmem => hrungs other (List.mem_cons_of_mem item hmem)) hitems.2
      intro i hi
      rcases flag_of_flagMove_flag hi with hold | ⟨rfl, htest⟩
      · rcases hs i hold with h | h | h
        · exact Or.inl h
        · exact Or.inr (Or.inl h)
        · exact Or.inr (Or.inr ⟨h.1, fun other hmem => h.2 other (List.mem_cons_of_mem item hmem)⟩)
      · rw [hrungs item (List.mem_cons_self ..)] at htest
        have hbound : item.1 = 0 ∨ top < item.1 + (k + 1) := by
          rcases productive_rung htest with h | h | h
          · exact Or.inl h
          · omega
          · rcases hs _ h with h | h | h
            · omega
            · omega
            · have hback := h.2 item (List.mem_cons_self ..)
              omega
        rcases hbound with h | h
        · exact Or.inl h
        · exact Or.inr (Or.inr ⟨h, hitems.1⟩)

theorem pairwise_ownedRules (g : Grammar) : g.ownedRules.Pairwise fun a b => a.1 < b.1 := by
  have hmap : (g.ownedRules.map Prod.fst).Pairwise (· < ·) := by
    rw [map_fst_ownedRules]
    exact List.pairwise_lt_range.filter _
  exact List.pairwise_map.1 hmap

/-- Any number of passes goes down as many rungs. -/
theorem late_iterate (k : Nat) : Late top k ((fun s => (productivePass (ladder top).ownedRules s).1)^[k]
    (Array.replicate (ladder top).nonterminals.size false)) := by
  induction k with
  | zero =>
      intro i hi
      rw [Function.iterate_zero, id, getD_replicate_false] at hi
      cases hi
  | succ k ih =>
      rw [Function.iterate_succ_apply', productivePass_eq_sweep]
      apply late_sweep (fun item hitem => ?_) (pairwise_ownedRules _)
      · intro i hi
        rw [productivePass_eq_sweep] at ih
        exact (ih i hi).imp_right Or.inl
      · exact (rule?_ladder_eq_some_iff.1 (mem_ownedRules.1 hitem).2).2.symm

/-- A rung that is further from the top than there are passes is not flagged. -/
theorem not_flag_ladder (hpos : 0 < i) (hi : i + maxPasses ≤ top) :
    ¬ (productive (ladder top)).value.getD i false = true := by
  intro hflag
  rw [productive_value_eq_iterate] at hflag
  have hlate := late_iterate maxPasses i hflag
  omega

/-- A pass flags what counts as productive whatever is flagged. -/
theorem flag_sweep (hcount : ∀ item ∈ items, item.1 < count) (hmem : item ∈ items)
    (h : ∀ s, item.2.productive s = true) : ∀ {s : Flags}, s.size = count →
    (sweep (flagMove Tree.productive) items s).1.getD item.1 false = true := by
  induction items with
  | nil => cases hmem
  | cons first items ih =>
      intro s hs
      have hrest : ∀ other ∈ items, other.1 < count := fun other hother =>
        hcount other (List.mem_cons_of_mem first hother)
      have hfirst := hcount first (List.mem_cons_self ..)
      have hs' := (flagMove_productive_local hfirst).valid hs
      rw [sweep_cons]
      rcases List.mem_cons.1 hmem with heq | hmem
      · rw [heq] at h ⊢
        exact (flagSweep_local Tree.productive_congr hrest).2.grows (x := 0) hs'
          (flag_flagMove hs hfirst (h s))
      · exact ih hrest hmem hs'

/-- The lowest rung is flagged by the first pass. -/
theorem flag_ladder_zero (top : Nat) : (productive (ladder top)).value.getD 0 false = true := by
  have hmem : (0, rung top 0) ∈ (ladder top).ownedRules :=
    mem_ownedRules.2 ⟨by rw [size_ladder]; omega, rule?_ladder_eq_some_iff.2 ⟨by omega, rfl⟩⟩
  have hlocal := productivePass_local (ladder top)
  have hinitial : (flagView _).Valid (Array.replicate (ladder top).nonterminals.size false) :=
    Array.size_replicate
  rw [productive_value_eq_iterate, show maxPasses = 999 + 1 from rfl, Function.iterate_succ_apply]
  apply hlocal.grows_iterate (x := 0) 999 (hlocal.valid hinitial)
  rw [productivePass_eq_sweep]
  exact flag_sweep lt_of_mem_ownedRules hmem (fun _ => rfl) hinitial

/-- **A ladder with more rungs than passes loses a word of its start symbol.**  The start symbol keeps its
rule, and the rule still refers to the next rung, whose rule has gone. -/
theorem ladder_loses_word (htop : maxPasses < top) :
    (ladder top).accepts 0 [2] = true ∧ (removeUseless (ladder top)).grammar.accepts 0 [2] = false ∧
      (removeUseless (ladder top)).grammar.rule? 0 = some (rung top 0) := by
  have hpos : 0 < top := Nat.zero_lt_of_lt htop
  have hwellFormed := wellFormed_ladder hpos
  have hrule : (ladder top).rule? 0 = some (rung top 0) := rule?_ladder_eq_some_iff.2 ⟨by omega, rfl⟩
  have hkept : (removeUseless (ladder top)).grammar.rule? 0 = some (rung top 0) := by
    rw [rule?_removeUseless hwellFormed, if_pos (mark_zero hwellFormed hrule (flag_ladder_zero top))]
    exact hrule
  have hgone : (removeUseless (ladder top)).grammar.rule? 1 = none := by
    rw [rule?_removeUseless hwellFormed, if_neg]
    exact fun hmark => not_flag_ladder Nat.one_pos (by omega) (flag_of_mark hmark)
  refine ⟨(accepts_iff _ 0 [2]).2 (language_ladder_zero hpos), ?_, hkept⟩
  rw [← Bool.not_eq_true, accepts_iff]
  intro hword
  obtain ⟨_, rule, hrule, hderives⟩ := language_iff.1 hword
  rw [hkept] at hrule
  cases hrule
  cases hderives with
  | altLeft h => cases h
  | altRight h =>
      obtain ⟨_, other, hother, _⟩ := language_iff.1 h
      rw [hgone] at hother
      cases hother

/-- A ladder of four rungs, whose passes converge, keeps all words of its start symbol. -/
theorem accepts_start_ladder_three : (productive (ladder 3)).converged = true ∧
    (removeUseless (ladder 3)).grammar.accepts 0 [2] = true ∧
    ∀ w, (removeUseless (ladder 3)).grammar.accepts 0 w = (ladder 3).accepts 0 w := by
  have hconv : (productive (ladder 3)).converged = true := by decide +kernel
  have hsame := accepts_start_of_converged (wellFormed_ladder (by decide)) hconv
    (start?_eq_some_iff.2 ⟨rfl, by decide⟩)
  refine ⟨hconv, ?_, hsame⟩
  rw [hsame, accepts_iff]
  exact language_ladder_zero (by decide)

/-- Two more nonterminals than passes are enough to lose a word. -/
theorem removal_loses_start_word : (ladder 1001).WellFormed ∧ (ladder 1001).nonterminals.size = 1002 ∧
    (ladder 1001).start? = some 0 ∧ (ladder 1001).accepts 0 [2] = true ∧
    (removeUseless (ladder 1001)).grammar.accepts 0 [2] = false := by
  have hsize := size_ladder 1001
  obtain ⟨hbefore, hafter, _⟩ := ladder_loses_word (show maxPasses < 1001 by decide)
  exact ⟨wellFormed_ladder (by decide), hsize, start?_eq_some_iff.2 ⟨rfl, by omega⟩, hbefore, hafter⟩

end Useless

end RuleGrammar
