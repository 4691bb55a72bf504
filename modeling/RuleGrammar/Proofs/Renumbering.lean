import Mathlib.Logic.Equiv.Basic
import RuleGrammar.Proofs.Inlining
import RuleGrammar.Proofs.LeastSolution

/-!
# The analyses do not depend on the order of the rules

Rules are gone through in the order of the numbers of their nonterminals.  With other numbers the passes
add the same things in another order, and more or fewer passes are made.  Since what they come to is the
least solution of the rules, it is the same up to the numbers.

* `Grammar.Permutes`, `Grammar.Renumbers σ g g'`: the second grammar is the first one with the numbers of
  its nonterminals changed by `σ`.
* `Inlines.renumber`, `Renumbers.expand`: opened references are put in place alike.
* `Grammar.Corresponds`: what a renumbering does to the expanded rules; `Corresponds.symm`.
* `nullable_le`, `first_le`, `follow_le`: what is computed for one grammar is computed for the other.
* `Analysis.least_and_independent_of_numbering`: the computed values are least, and keep to the numbers.
-/

namespace RuleGrammar

/-! ### Renamed trees -/

theorem Tree.rename_rename {σ τ : Nat → Nat} (h : ∀ n, τ (σ n) = n) (t : Rule) :
    (t.rename id id σ).rename id id τ = t := by
  induction t with
  | reference nt opened => simp [rename, h]
  | seq l r ihl ihr | alt l r ihl ihr | iter l r ihl ihr => simp [rename, ihl, ihr]
  | _ => rfl

namespace Grammar

variable {g g' : Grammar} {σ : Equiv.Perm Nat} {nt : Nat} {t u : Rule}

/-- Other numbers for the nonterminals of a grammar, in a second grammar with as many of them; the start
symbol stays first. -/
structure Permutes (σ : Equiv.Perm Nat) (g g' : Grammar) : Prop where
  size : g'.nonterminals.size = g.nonterminals.size
  below : ∀ nt, σ nt < g.nonterminals.size ↔ nt < g.nonterminals.size
  start : 0 < g.nonterminals.size → σ 0 = 0

/-- The rules of the second grammar are those of the first one under other numbers.  Names play no
part. -/
structure Renumbers (σ : Equiv.Perm Nat) (g g' : Grammar) : Prop extends Permutes σ g g' where
  rule : ∀ nt, nt < g.nonterminals.size → g'.rule? (σ nt) = (g.rule? nt).map (Tree.rename id id σ)

/-- Opened references are put in place alike under other numbers. -/
theorem Inlines.renumber {path : List Nat} (hg : g.WellFormed) (hσ : Renumbers σ g g')
    (h : g.Inlines path t u) (ht : g.Covers t) :
    g'.Inlines (path.map σ) (t.rename id id σ) (u.rename id id σ) := by
  induction h with
  | terminal a => exact .terminal a
  | semantic a => exact .semantic a
  | plain nt => exact .plain (σ nt)
  | @absent path nt hrule =>
      refine .absent ?_
      rw [hσ.rule nt ht, hrule]
      rfl
  | @entered path nt hpath => exact .entered (List.mem_map_of_mem hpath)
  | @opened path nt rule u hrule hpath _ ih =>
      have hrule' : g'.rule? (σ nt) = some (rule.rename id id σ) := by
        rw [hσ.rule nt ht, hrule]
        rfl
      exact .opened hrule' (by simpa using hpath) (ih (hg.covered hrule))
  | seq _ _ ihl ihr => exact .seq (ihl ht.1) (ihr ht.2)
  | alt _ _ ihl ihr => exact .alt (ihl ht.1) (ihr ht.2)
  | iter _ _ ihl ihr => exact .iter (ihl ht.1) (ihr ht.2)

/-- A renamed tree is expanded to the renamed expansion, though the two grammars may have different
numbers of places for rules. -/
theorem Renumbers.expand (hσ : Renumbers σ g g') (hg : g.WellFormed) (ht : g.Covers t) :
    g'.expand (t.rename id id σ) = (g.expand t).rename id id σ :=
  (inlines_expand g' _).unique ((inlines_expand g t).renumber hg hσ ht)

/-! ### Expanded rules -/

/-- The expanded rules of the second grammar are those of the first one under other numbers. -/
structure Corresponds (σ : Equiv.Perm Nat) (g g' : Grammar) : Prop extends Permutes σ g g' where
  expandedRule : ∀ nt, nt < g.nonterminals.size →
    g'.expandedRule? (σ nt) = (g.expandedRule? nt).map (Tree.rename id id σ)

theorem Renumbers.corresponds (hσ : Renumbers σ g g') (hg : g.WellFormed) : Corresponds σ g g' where
  toPermutes := hσ.toPermutes
  expandedRule nt hnt := by
    rw [expandedRule?, expandedRule?, hσ.rule nt hnt]
    cases hrule : g.rule? nt with
    | none => rfl
    | some rule => exact congrArg some (hσ.expand hg (hg.covered hrule))

namespace Corresponds

/-- The first grammar is the second one with its numbers changed back. -/
theorem symm (h : Corresponds σ g g') : Corresponds σ.symm g' g where
  size := h.size.symm
  below m := by
    have hback := h.below (σ.symm m)
    rw [Equiv.apply_symm_apply] at hback
    rw [h.size]
    exact hback.symm
  start hpos := by
    rw [h.size] at hpos
    exact σ.symm_apply_eq.2 (h.start hpos).symm
  expandedRule m hm := by
    rw [h.size] at hm
    have hnt : σ.symm m < g.nonterminals.size := by
      rw [← h.below, Equiv.apply_symm_apply]
      exact hm
    have hrule := h.expandedRule (σ.symm m) hnt
    rw [Equiv.apply_symm_apply] at hrule
    rw [hrule, Option.map_map]
    cases g.expandedRule? (σ.symm m) with
    | none => rfl
    | some rule => exact congrArg some (Tree.rename_rename σ.symm_apply_apply rule).symm

theorem of_mem_expandedRules {rule : Rule} (h : Corresponds σ g g')
    (hmem : (nt, rule) ∈ Analysis.expandedRules g) : σ nt < g'.nonterminals.size ∧
      g'.expandedRule? (σ nt) = some (rule.rename id id σ) := by
  obtain ⟨hnt, hrule⟩ := Analysis.mem_expandedRules.1 hmem
  refine ⟨?_, ?_⟩
  · rw [h.size, h.below]
    exact hnt
  · rw [h.expandedRule nt hnt, hrule]
    rfl

/-! ### What is computed for one grammar is computed for the other -/

open Analysis

variable (h : Corresponds σ g g') (hclosed : (compute g').Saturated g')

include h hclosed

theorem nullable_le : ∀ nt, (compute g).nullable nt = true → (compute g').nullable (σ nt) = true := by
  intro nt hnull
  refine nullable_induction (P := fun nt => (compute g').nullable (σ nt) = true) ?_ hnull
  intro flags hflags nt rule hmem hnull
  obtain ⟨hnt, hrule⟩ := h.of_mem_expandedRules hmem
  exact hclosed.nullable hnt hrule (Tree.nullable_rename_of_le hflags hnull)

theorem first_le : ∀ nt x, x ∈ (compute g).first nt → x ∈ (compute g').first (σ nt) := by
  intro nt x hx
  refine first_induction (Q := fun nt x => x ∈ (compute g').first (σ nt)) ?_ hx
  intro sets hsets nt rule x hmem hx
  obtain ⟨hnt, hrule⟩ := h.of_mem_expandedRules hmem
  apply hclosed.first hnt hrule
  exact Tree.mem_first_rename_of_le (h.nullable_le hclosed) (fun n => hsets n x) hx

theorem follow_le : ∀ nt x, x ∈ (compute g).follow nt → x ∈ (compute g').follow (σ nt) := by
  intro nt x hx
  refine follow_induction (Q := fun nt x => x ∈ (compute g').follow (σ nt)) (fun hpos => ?_) ?_ hx
  · rw [h.start hpos]
    exact hclosed.finish (by rw [h.size]; exact hpos)
  · intro nt rule context hmem hcontext m x hm hx
    obtain ⟨hnt, hrule⟩ := h.of_mem_expandedRules hmem
    apply hclosed.follow hnt hrule (by rw [h.size, h.below]; exact hm)
    exact hx.rename (h.nullable_le hclosed) (fun n => h.first_le hclosed n x) (hcontext x)

end Corresponds

end Grammar

namespace Analysis

open Grammar

variable {g : Grammar}

/-- **The analyses are least solutions, and so do not depend on the order of the rules.**  If the passes
converge, the computed values are the least that are closed under the expanded rules.  If they converge
for a renumbered grammar too, what is computed for it is the same up to the numbers. -/
theorem least_and_independent_of_numbering (hg : g.WellFormed) (h : (compute g).Converged) :
    (compute g).IsLeastSolution g ∧
      ∀ (σ : Equiv.Perm Nat) (g' : Grammar), Renumbers σ g g' → (compute g').Converged → ∀ nt,
        (compute g').nullable (σ nt) = (compute g).nullable nt ∧
        (compute g').first (σ nt) = (compute g).first nt ∧
        (compute g').follow (σ nt) = (compute g).follow nt := by
  refine ⟨isLeastSolution_of_converged h, fun σ g' hσ h' nt => ?_⟩
  have hthere := hσ.corresponds hg
  have hback := hthere.symm
  have hclosed := saturated_of_converged h
  have hclosed' := saturated_of_converged h'
  -- one inclusion goes through the numbers, the other one goes back
  refine ⟨Bool.eq_iff_iff.2 ⟨fun hnull => ?_, hthere.nullable_le hclosed' nt⟩,
    NumberSet.ext fun x => ⟨fun hx => ?_, hthere.first_le hclosed' nt x⟩,
    NumberSet.ext fun x => ⟨fun hx => ?_, hthere.follow_le hclosed' nt x⟩⟩
  · have hsame := hback.nullable_le hclosed (σ nt) hnull
    rwa [Equiv.symm_apply_apply] at hsame
  · have hsame := hback.first_le hclosed (σ nt) x hx
    rwa [Equiv.symm_apply_apply] at hsame
  · have hsame := hback.follow_le hclosed (σ nt) x hx
    rwa [Equiv.symm_apply_apply] at hsame

/-- A list that opens itself after its first item; the sign of an item may be left out. -/
def forwardList : Grammar where
  terminals := ⟨#["", "x", "-", ","], by decide⟩
  nonterminals := ⟨#["items", "item", "sign"], by decide⟩
  semantics := SymbolTable.empty
  macros := ⟨#["items"], by decide⟩
  rules := #[
    some (.seq (.reference 1 false) (.alt (.seq (.terminal 3) (.reference 0 true)) (.terminal 0))),
    some (.seq (.reference 2 false) (.terminal 1)),
    some (.alt (.terminal 2) (.terminal 0))]
  emptyName := by decide

/-- The same list with the sign before the item. -/
def backwardList : Grammar where
  terminals := forwardList.terminals
  nonterminals := ⟨#["items", "sign", "item"], by decide⟩
  semantics := SymbolTable.empty
  macros := forwardList.macros
  rules := #[
    some (.seq (.reference 2 false) (.alt (.seq (.terminal 3) (.reference 0 true)) (.terminal 0))),
    some (.alt (.terminal 2) (.terminal 0)),
    some (.seq (.reference 1 false) (.terminal 1))]
  emptyName := forwardList.emptyName

theorem renumbers_backwardList : Renumbers (Equiv.swap 1 2) forwardList backwardList where
  size := rfl
  below nt := by
    show Equiv.swap 1 2 nt < 3 ↔ nt < 3
    rw [Equiv.swap_apply_def]
    split
    · omega
    · split <;> omega
  start _ := rfl
  rule nt hnt := by
    match nt, hnt with
    | 0, _ => rfl
    | 1, _ => rfl
    | 2, _ => rfl

/-- The passes are not as many for one list as for the other, but what they come to is the same: a sign is
nullable, begins with its letter, and is followed by the letter of an item. -/
theorem least_and_independent_of_numbering_lists :
    (compute forwardList).Converged ∧ (compute backwardList).Converged ∧
    (compute forwardList).firstRun.passes = 4 ∧ (compute backwardList).firstRun.passes = 3 ∧
    (compute forwardList).IsLeastSolution forwardList ∧
    (compute backwardList).nullable 1 = true ∧
    ((compute backwardList).first 1).toList = [3] ∧
    ((compute backwardList).follow 1).toList = [2] := by
  have hconv : (compute forwardList).Converged := converged_compute (by decide)
  have hconv' : (compute backwardList).Converged := converged_compute (by decide)
  obtain ⟨hleast, hsame⟩ := least_and_independent_of_numbering (g := forwardList)
    (by decide +kernel) hconv
  obtain ⟨hnullable, hfirst, hfollow⟩ := hsame _ _ renumbers_backwardList hconv' 2
  have hsign : Equiv.swap 1 2 2 = 1 := rfl
  rw [hsign] at hnullable hfirst hfollow
  refine ⟨hconv, hconv', by decide +kernel, by decide +kernel, hleast, ?_, ?_, ?_⟩
  · rw [hnullable]
    decide +kernel
  · rw [hfirst]
    decide +kernel
  · rw [hfollow]
    decide +kernel

end Analysis

end RuleGrammar
