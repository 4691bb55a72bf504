import RuleGrammar.Proofs.Inlining
import RuleGrammar.Proofs.LeastSolution

/-!
# Opening a reference changes neither NULLABLE nor FIRST

The analyses go over expanded rules, in which the rules of opened references stand in their places, cut at
various depths where a rule comes up inside itself.  A reference that is left as it is counts for what its
nonterminal counts for, and a rule in its place counts for the same: what the passes know of a nonterminal
they know of everything that inlining can put in its place, however deep it is cut.  So the analyses come
to what they would come to without any opened references.

* `Tree.unopened`, `Grammar.unopened`: a tree and a grammar with plain references only.
* `Inlines.nullable_of_inlined`, `Inlines.mem_first_of_inlined`: an inlined tree counts for no more than
  the tree, if the values are closed under the rules as they stand.
* `AllInlined`: a property of everything that inlining can put in the place of a nonterminal.
* `Inlines.nullable_inlined`, `Inlines.mem_first_inlined`: an inlined tree counts for no less than the tree,
  if this holds of all that is put in place.
* `Analysis.values_unopened`: the computed flags and sets are the same.
* `Analysis.nullable_and_first_same_unopened`: so are the answers for trees and for expanded trees.
-/

namespace RuleGrammar

/-! ### Plain references -/

/-- The tree with every reference plain. -/
def Tree.unopened (t : Rule) : Rule := t.substitute fun nt => .reference nt false

namespace Tree

theorem closed_unopened (t : Rule) : t.unopened.Closed := by
  induction t with
  | reference nt opened => cases opened <;> simp [unopened, substitute, Closed, mentions]
  | seq l r ihl ihr | alt l r ihl ihr | iter l r ihl ihr => exact Closed.pair rfl ihl ihr
  | _ => simp [unopened, substitute, Closed, mentions]

theorem nullable_unopened (flags : Flags) (t : Rule) :
    t.unopened.nullable flags = t.nullable flags := by
  induction t with
  | reference nt opened => cases opened <;> rfl
  | seq l r ihl ihr | alt l r ihl ihr =>
      simp only [unopened] at ihl ihr
      simp only [unopened, substitute, nullable, ihl, ihr]
  | _ => rfl

theorem first_unopened (flags : Flags) (sets : LookaheadSets) (t : Rule) :
    t.unopened.first flags sets = t.first flags sets := by
  induction t with
  | reference nt opened => cases opened <;> rfl
  | seq l r ihl ihr =>
      have hnull := nullable_unopened flags l
      simp only [unopened] at ihl ihr hnull
      simp only [unopened, substitute, first, ihl, ihr, hnull]
  | alt l r ihl ihr =>
      simp only [unopened] at ihl ihr
      simp only [unopened, substitute, first, ihl, ihr]
  | iter l r ihl ihr => exact ihl
  | _ => rfl

end Tree

namespace Grammar

variable {g : Grammar} {nt : Nat} {path : List Nat} {rule t u : Rule}

/-- The grammar with every reference in its rules plain. -/
def unopened (g : Grammar) : Grammar := { g with rules := g.rules.map (Option.map Tree.unopened) }

theorem rule?_unopened (g : Grammar) (nt : Nat) :
    g.unopened.rule? nt = (g.rule? nt).map Tree.unopened := by
  show ((g.rules.map (Option.map Tree.unopened))[nt]?).join = _
  rw [Array.getElem?_map, rule?]
  cases g.rules[nt]? <;> rfl

/-- Where nothing is opened, expansion has nothing to do. -/
theorem expandedRule?_unopened (g : Grammar) (nt : Nat) :
    g.unopened.expandedRule? nt = (g.rule? nt).map Tree.unopened := by
  rw [expandedRule?, rule?_unopened, Option.map_map]
  cases g.rule? nt with
  | none => rfl
  | some rule => exact congrArg some (expand_of_closed (Tree.closed_unopened rule))

/-! ### An inlined tree counts for no more than the tree -/

section

variable {flags : Flags} {sets : LookaheadSets} {x : Nat}

theorem Inlines.nullable_of_inlined
    (hflags : ∀ nt rule, g.rule? nt = some rule → rule.nullable flags = true →
      flags.getD nt false = true)
    (h : g.Inlines path t u) : u.nullable flags = true → t.nullable flags = true := by
  induction h with
  | opened hrule _ _ ih =>
      intro hu
      exact hflags _ _ hrule (ih hu)
  | seq _ _ ihl ihr =>
      intro hu
      obtain ⟨hl, hr⟩ := Bool.and_eq_true_iff.1 hu
      simp [Tree.nullable, ihl hl, ihr hr]
  | alt _ _ ihl ihr =>
      intro hu
      rcases Bool.or_eq_true_iff.1 hu with hl | hr
      · simp [Tree.nullable, ihl hl]
      · simp [Tree.nullable, ihr hr]
  | _ => exact id

theorem Inlines.mem_first_of_inlined
    (hflags : ∀ nt rule, g.rule? nt = some rule → rule.nullable flags = true →
      flags.getD nt false = true)
    (hsets : ∀ nt rule, g.rule? nt = some rule → x ∈ rule.first flags sets →
      x ∈ sets.getD nt .empty)
    (h : g.Inlines path t u) : x ∈ u.first flags sets → x ∈ t.first flags sets := by
  induction h with
  | opened hrule _ _ ih =>
      intro hu
      exact hsets _ _ hrule (ih hu)
  | seq hl _ ihl ihr =>
      intro hu
      rw [Tree.mem_first_seq] at hu ⊢
      exact hu.imp ihl fun hu => ⟨hl.nullable_of_inlined hflags hu.1, ihr hu.2⟩
  | alt _ _ ihl ihr =>
      intro hu
      rw [Tree.first, NumberSet.mem_union] at hu ⊢
      exact hu.imp ihl ihr
  | iter _ _ ihl _ => exact ihl
  | _ => exact id

end

/-! ### An inlined tree counts for no less than the tree -/

/-- Everything that inlining can put in the place of a nonterminal has a property. -/
def AllInlined (g : Grammar) (P : Rule → Prop) (nt : Nat) : Prop :=
  ∀ opened path u, g.Inlines path (.reference nt opened) u → P u

/-- What inlining puts in the place of a nonterminal is a plain reference or comes from its rule. -/
theorem allInlined_of_rule {P : Rule → Prop} (hrule : g.rule? nt = some rule)
    (hplain : P (.reference nt false)) (hbody : ∀ path u, g.Inlines path rule u → P u) :
    g.AllInlined P nt := by
  intro opened path u h
  cases h with
  | plain | absent | entered => exact hplain
  | opened hother _ hinlines =>
      rw [hrule] at hother
      cases hother
      exact hbody _ _ hinlines

section

variable {known flags : Flags} {given sets : LookaheadSets} {x : Nat}

theorem Inlines.nullable_inlined
    (hknown : ∀ nt, known.getD nt false = true → g.AllInlined (·.nullable flags = true) nt)
    (h : g.Inlines path t u) (ht : t.nullable known = true) : u.nullable flags = true := by
  induction t generalizing u with
  | reference nt opened => exact hknown nt ht opened path u h
  | seq l r ihl ihr =>
      cases h with
      | seq hl hr =>
          obtain ⟨htl, htr⟩ := Bool.and_eq_true_iff.1 ht
          simp [Tree.nullable, ihl hl htl, ihr hr htr]
  | alt l r ihl ihr =>
      cases h with
      | alt hl hr =>
          rcases Bool.or_eq_true_iff.1 ht with htl | htr
          · simp [Tree.nullable, ihl hl htl]
          · simp [Tree.nullable, ihr hr htr]
  | _ =>
      cases h
      exact ht

theorem Inlines.mem_first_inlined
    (hknown : ∀ nt, known.getD nt false = true → g.AllInlined (·.nullable flags = true) nt)
    (hgiven : ∀ nt, x ∈ given.getD nt .empty → g.AllInlined (x ∈ ·.first flags sets) nt)
    (h : g.Inlines path t u) (ht : x ∈ t.first known given) : x ∈ u.first flags sets := by
  induction t generalizing u with
  | reference nt opened => exact hgiven nt ht opened path u h
  | seq l r ihl ihr =>
      cases h with
      | seq hl hr =>
          rw [Tree.mem_first_seq] at ht ⊢
          exact ht.imp (ihl hl) fun ht => ⟨hl.nullable_inlined hknown ht.1, ihr hr ht.2⟩
  | alt l r ihl ihr =>
      cases h with
      | alt hl hr =>
          rw [Tree.first, NumberSet.mem_union] at ht ⊢
          exact ht.imp (ihl hl) (ihr hr)
  | iter l r ihl _ =>
      cases h with
      | iter hl hr =>
          have hleft := ihl hl ht
          exact hleft
  | _ =>
      cases h
      exact ht

end

end Grammar

namespace Analysis

open Grammar

variable {g : Grammar} {nt x : Nat} {rule t : Rule}

/-! ### The analyses of plain rules -/

theorem mem_expandedRules_unopened : (nt, rule) ∈ expandedRules g.unopened ↔
    nt < g.nonterminals.size ∧ ∃ written, g.rule? nt = some written ∧ written.unopened = rule := by
  rw [mem_expandedRules, expandedRule?_unopened, Option.map_eq_some_iff]
  exact Iff.rfl

section

variable (hg : g.WellFormed) (hclosed : (compute g.unopened).Saturated g.unopened)

include hg hclosed

/-- Without opened references the flags are closed under the rules as they stand. -/
theorem nullable_unopened_of_rule (hrule : g.rule? nt = some rule)
    (h : rule.nullable (compute g.unopened).nullableRun.value = true) :
    (compute g.unopened).nullable nt = true := by
  have hexpanded : g.unopened.expandedRule? nt = some rule.unopened := by
    rw [expandedRule?_unopened, hrule]
    rfl
  refine hclosed.nullable (hg.owned hrule) hexpanded ?_
  rw [isNullable, Tree.nullable_unopened]
  exact h

/-- Without opened references the sets are closed under the rules as they stand. -/
theorem mem_first_unopened_of_rule (hrule : g.rule? nt = some rule)
    (h : x ∈ rule.first (compute g.unopened).nullableRun.value (compute g.unopened).firstRun.value) :
    x ∈ (compute g.unopened).first nt := by
  have hexpanded : g.unopened.expandedRule? nt = some rule.unopened := by
    rw [expandedRule?_unopened, hrule]
    rfl
  refine hclosed.first (hg.owned hrule) hexpanded ?_
  rw [firstOf, Tree.first_unopened]
  exact h

/-- What counts as nullable with opened references counts so without them. -/
theorem nullable_unopened_of_nullable (h : (compute g).nullable nt = true) :
    (compute g.unopened).nullable nt = true := by
  refine nullable_induction (P := fun nt => (compute g.unopened).nullable nt = true) ?_ h
  intro flags hflags nt rule hmem hnull
  obtain ⟨_, hexpanded⟩ := mem_expandedRules.1 hmem
  obtain ⟨written, hwritten, rfl⟩ := Option.map_eq_some_iff.1 hexpanded
  have hlarger := Tree.nullable_mono hflags hnull
  refine nullable_unopened_of_rule hg hclosed hwritten ?_
  exact (inlines_expand g written).nullable_of_inlined
    (fun _ _ hrule => nullable_unopened_of_rule hg hclosed hrule) hlarger

/-- What a nonterminal begins with when references are opened it begins with when they are not. -/
theorem mem_first_unopened_of_mem (h : x ∈ (compute g).first nt) :
    x ∈ (compute g.unopened).first nt := by
  refine first_induction (Q := fun nt x => x ∈ (compute g.unopened).first nt) ?_ h
  intro sets hsets nt rule x hmem hx
  obtain ⟨_, hexpanded⟩ := mem_expandedRules.1 hmem
  obtain ⟨written, hwritten, rfl⟩ := Option.map_eq_some_iff.1 hexpanded
  have hlarger := Tree.mem_first_mono (fun nt => nullable_unopened_of_nullable hg hclosed)
    (fun n => hsets n x) hx
  refine mem_first_unopened_of_rule hg hclosed hwritten ?_
  exact (inlines_expand g written).mem_first_of_inlined
    (fun _ _ hrule => nullable_unopened_of_rule hg hclosed hrule)
    (fun _ _ hrule => mem_first_unopened_of_rule hg hclosed hrule) hlarger

end

section

variable (hclosed : (compute g).Saturated g)

include hclosed

/-- What counts as nullable without opened references counts so with them, and so does everything that
inlining can put in its place. -/
theorem allInlined_of_nullable_unopened (h : (compute g.unopened).nullable nt = true) :
    g.AllInlined (fun u => (compute g).isNullable u = true) nt := by
  refine nullable_induction (P := g.AllInlined fun u => (compute g).isNullable u = true) ?_ h
  intro flags hflags nt rule hmem hnull
  obtain ⟨hnt, written, hwritten, rfl⟩ := mem_expandedRules_unopened.1 hmem
  rw [Tree.nullable_unopened] at hnull
  have hbody : ∀ path u, g.Inlines path written u → (compute g).isNullable u = true :=
    fun path u hu => hu.nullable_inlined hflags hnull
  refine allInlined_of_rule hwritten ?_ hbody
  have hexpanded : g.expandedRule? nt = some (g.expand written) := by
    rw [expandedRule?, hwritten]
    rfl
  exact hclosed.nullable hnt hexpanded (hbody [] _ (inlines_expand g written))

/-- What a nonterminal begins with when no references are opened it begins with when they are, and so does
everything that inlining can put in its place. -/
theorem allInlined_of_mem_first_unopened (h : x ∈ (compute g.unopened).first nt) :
    g.AllInlined (fun u => x ∈ (compute g).firstOf u) nt := by
  refine first_induction (Q := fun nt x => g.AllInlined (fun u => x ∈ (compute g).firstOf u) nt) ?_ h
  intro sets hsets nt rule x hmem hx
  obtain ⟨hnt, written, hwritten, rfl⟩ := mem_expandedRules_unopened.1 hmem
  rw [Tree.first_unopened] at hx
  have hbody : ∀ path u, g.Inlines path written u → x ∈ (compute g).firstOf u := fun path u hu =>
    hu.mem_first_inlined (fun nt => allInlined_of_nullable_unopened hclosed) (fun nt => hsets nt x) hx
  refine allInlined_of_rule hwritten ?_ hbody
  have hexpanded : g.expandedRule? nt = some (g.expand written) := by
    rw [expandedRule?, hwritten]
    rfl
  exact hclosed.first hnt hexpanded (hbody [] _ (inlines_expand g written))

end

/-! ### The values are the same -/

theorem eq_of_getD_eq {α : Type} {xs ys : Array α} {d : α} (hsize : xs.size = ys.size)
    (h : ∀ i, xs.getD i d = ys.getD i d) : xs = ys := by
  refine Array.ext hsize fun i hi hi' => ?_
  simpa [hi, hi'] using h i

/-- **The flags and the sets of first lookaheads are those of the grammar without opened references.** -/
theorem values_unopened (hg : g.WellFormed) (hsize : g.nonterminals.size ≤ 999) :
    (compute g.unopened).nullableRun.value = (compute g).nullableRun.value ∧
      (compute g.unopened).firstRun.value = (compute g).firstRun.value := by
  have hconv : (compute g).Converged := converged_compute hsize
  have hconv' : (compute g.unopened).Converged := converged_compute hsize
  have hclosed := saturated_of_converged hconv
  have hclosed' := saturated_of_converged hconv'
  constructor
  · apply eq_of_getD_eq (d := false)
    · rw [(nullableClosed_of_converged hconv).size, (nullableClosed_of_converged hconv').size]
      rfl
    · intro nt
      refine Bool.eq_iff_iff.2 ⟨fun h => ?_, nullable_unopened_of_nullable hg hclosed'⟩
      exact allInlined_of_nullable_unopened hclosed h false [] _ (.plain nt)
  · apply eq_of_getD_eq (d := .empty)
    · rw [(firstClosed_of_converged hconv).size, (firstClosed_of_converged hconv').size]
      rfl
    · intro nt
      refine NumberSet.ext fun x => ⟨fun h => ?_, mem_first_unopened_of_mem hg hclosed'⟩
      exact allInlined_of_mem_first_unopened hclosed h false [] _ (.plain nt)

/-- **Opening a reference changes neither NULLABLE nor FIRST.**  Every nonterminal has the flag and the
first lookaheads that it has with all references plain, and every tree counts for the same as its
expansion. -/
theorem nullable_and_first_same_unopened (hg : g.WellFormed) (hsize : g.nonterminals.size ≤ 999) :
    (∀ nt, (compute g.unopened).nullable nt = (compute g).nullable nt ∧
        (compute g.unopened).first nt = (compute g).first nt) ∧
      ∀ t, (compute g).isNullable (g.expand t) = (compute g).isNullable t ∧
        (compute g).firstOf (g.expand t) = (compute g).firstOf t := by
  obtain ⟨hflags, hsets⟩ := values_unopened hg hsize
  have hclosed := saturated_compute hsize
  have hclosed' : (compute g.unopened).Saturated g.unopened := saturated_compute hsize
  -- the flags and sets are closed under the rules as they stand, too
  have hnullRule : ∀ nt rule, g.rule? nt = some rule →
      rule.nullable (compute g.unopened).nullableRun.value = true →
      (compute g.unopened).nullable nt = true :=
    fun _ _ hrule => nullable_unopened_of_rule hg hclosed' hrule
  have hfirstRule : ∀ x nt rule, g.rule? nt = some rule →
      x ∈ rule.first (compute g.unopened).nullableRun.value (compute g.unopened).firstRun.value →
      x ∈ (compute g.unopened).first nt :=
    fun _ _ _ hrule => mem_first_unopened_of_rule hg hclosed' hrule
  have hnullAll : ∀ nt, (compute g.unopened).nullable nt = true →
      g.AllInlined (fun u => (compute g).isNullable u = true) nt :=
    fun _ => allInlined_of_nullable_unopened hclosed
  have hfirstAll : ∀ x nt, x ∈ (compute g.unopened).first nt →
      g.AllInlined (fun u => x ∈ (compute g).firstOf u) nt :=
    fun _ _ => allInlined_of_mem_first_unopened hclosed
  simp only [nullable, first, hflags, hsets] at hnullRule hfirstRule hnullAll hfirstAll
  refine ⟨fun nt => ⟨?_, ?_⟩, fun t => ?_⟩
  · rw [nullable, nullable, hflags]
  · rw [first, first, hsets]
  have hinlines := inlines_expand g t
  refine ⟨Bool.eq_iff_iff.2 ⟨fun h => ?_, fun h => ?_⟩, NumberSet.ext fun x => ⟨fun h => ?_, fun h => ?_⟩⟩
  · exact hinlines.nullable_of_inlined hnullRule h
  · exact hinlines.nullable_inlined hnullAll h
  · exact hinlines.mem_first_of_inlined hnullRule (hfirstRule x) h
  · exact hinlines.mem_first_inlined hnullAll (hfirstAll x) h

/-- Three rules that open each other: the second one may be left out, and the third one begins with it. -/
def interleaved : Grammar where
  terminals := ⟨#["", "x", "m", "n"], by decide⟩
  nonterminals := ⟨#["S", "M", "N"], by decide⟩
  semantics := SymbolTable.empty
  macros := ⟨#["S", "M", "N"], by decide⟩
  rules := #[
    some (.seq (.reference 1 true) (.terminal 1)),
    some (.alt (.seq (.reference 2 true) (.terminal 2)) (.terminal 0)),
    some (.alt (.seq (.reference 1 true) (.reference 0 true)) (.terminal 3))]
  emptyName := by decide

/-- The second rule begins with the letter of the first one by way of the third, whether the rules are put
in place or not; put in place, it is cut in two places. -/
theorem nullable_and_first_same_interleaved : interleaved.WellFormed ∧
    interleaved.expand (.reference 1 true) = .alt
      (.seq (.alt (.seq (.reference 1 false) (.seq (.reference 1 false) (.terminal 1))) (.terminal 3))
        (.terminal 2))
      (.terminal 0) ∧
    (compute interleaved.unopened).nullable 1 = true ∧
    ((compute interleaved.unopened).first 1).toList = [2, 4] ∧
    (compute interleaved).isNullable (interleaved.expand (.reference 1 true)) = true ∧
    ((compute interleaved).firstOf (interleaved.expand (.reference 1 true))).toList = [2, 4] := by
  have hwellFormed : interleaved.WellFormed := by decide +kernel
  obtain ⟨hvalues, htrees⟩ := nullable_and_first_same_unopened hwellFormed (by decide)
  obtain ⟨hnullable, hfirst⟩ := hvalues 1
  obtain ⟨htree, htreeFirst⟩ := htrees (.reference 1 true)
  refine ⟨hwellFormed, by decide +kernel, ?_, ?_, ?_, ?_⟩
  · rw [hnullable]
    decide +kernel
  · rw [hfirst]
    decide +kernel
  · rw [htree]
    decide +kernel
  · rw [htreeFirst]
    decide +kernel

end Analysis

end RuleGrammar
