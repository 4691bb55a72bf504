import RuleGrammar.Analysis
import RuleGrammar.Proofs.Closure
import RuleGrammar.Proofs.Convergence

/-!
# The analyses of a grammar are saturated

The passes of the analyses mark nonterminals: with a flag, or with the lookaheads of a set.  Each of
them treats a mark by itself, so with no more than 999 nonterminals all of them converge, and the
values that they reach are closed under what the rules ask for.

* `flagView`, `setView`: the marks of flags and of sets.
* `Handed`: the lookaheads that a tree hands down to a reference; `mem_spread`.
* `Tree.nullable_congr`, `Tree.mem_first_congr`: what a tree looks at.
* `Tree.nullable_rename_of_le`, `Tree.mem_first_rename_of_le`, `Handed.rename`: with larger values a tree
  gives more, also under other numbers of its references; `Tree.nullable_mono`, `Tree.mem_first_mono`.
* `flags_closed`: flags that are set by a test; `firstPass_local`, `followPass_local`: the passes for sets.
* `settles_nullableRun`, `settles_firstRun`, `settles_followRun`: the passes that the analyses make.
* `Saturated`: closed under the rules; `saturated_of_converged`, `saturated_compute`.
-/

namespace RuleGrammar

open FixedPoint

/-! ### Flags -/

/-- The marks of flags: there is only one, and it is the flag itself. -/
def flagView (count : Nat) : View Flags where
  Valid flags := flags.size = count
  Holds flags _ n := flags.getD n false = true
  count := count
  below {flags _ n} hsize h := by
    by_contra hge
    rw [Array.getD_eq_getD_getElem?, Array.getElem?_eq_none (by omega)] at h
    cases h

/-- Sets the flag of a nonterminal whose rule passes a test. -/
def flagMove (test : Flags → Rule → Bool) (item : Nat × Rule) (flags : Flags) : Flags × Bool :=
  if !flags.getD item.1 false && test flags item.2 then (flags.setIfInBounds item.1 true, true)
  else (flags, false)

/-- A pass that sets flags one after the other is a sweep of such moves. -/
theorem foldl_flags_eq_sweep (test : Flags → Rule → Bool) (rules : List (Nat × Rule))
    (flags : Flags) :
    rules.foldl (fun (flags, changed) (nt, rule) =>
        if !flags.getD nt false && test flags rule then (flags.setIfInBounds nt true, true)
        else (flags, changed)) (flags, false)
      = sweep (flagMove test) rules flags := by
  rw [sweep]
  congr 1
  funext state item
  obtain ⟨flags, changed⟩ := state
  obtain ⟨nt, rule⟩ := item
  simp only [flagMove]
  split <;> simp

theorem getD_setIfInBounds {α : Type} {xs : Array α} {i n : Nat} {a d : α} (hi : i < xs.size) :
    (xs.setIfInBounds i a).getD n d = if n = i then a else xs.getD n d := by
  simp only [Array.getD_eq_getD_getElem?, Array.getElem?_setIfInBounds]
  by_cases h : n = i
  · subst h
    simp [hi]
  · simp [h, Ne.symm h]

theorem getD_replicate_false (count n : Nat) : (Array.replicate count false).getD n false = false := by
  rw [Array.getD_eq_getD_getElem?, Array.getElem?_replicate]
  split <;> rfl

/-- Setting flags by a test that looks at flags only is a local move. -/
theorem flagMove_local {test : Flags → Rule → Bool} {count : Nat} {item : Nat × Rule}
    (hitem : item.1 < count)
    (htest : ∀ {s t : Flags}, (∀ n, s.getD n false = t.getD n false) → test s item.2 = test t item.2) :
    (flagView count).Local (flagMove test item) where
  valid {s} hs := by
    unfold flagMove
    split
    · exact (Array.size_setIfInBounds ..).trans hs
    · exact hs
  grows {s x n} hs h := by
    unfold flagMove
    split
    · show (s.setIfInBounds item.1 true).getD n false = true
      rw [getD_setIfInBounds (by rw [show s.size = count from hs]; exact hitem)]
      split
      · rfl
      · exact h
    · exact h
  depends {s t x} hs ht heq n := by
    have hsame : ∀ n, s.getD n false = t.getD n false := fun n => Bool.eq_iff_iff.2 (heq n)
    unfold flagMove
    rw [hsame item.1, htest hsame]
    split
    · show (s.setIfInBounds item.1 true).getD n false = true
        ↔ (t.setIfInBounds item.1 true).getD n false = true
      rw [getD_setIfInBounds (by rw [show s.size = count from hs]; exact hitem),
        getD_setIfInBounds (by rw [show t.size = count from ht]; exact hitem), hsame n]
    · exact heq n
  unchanged {s} _ hno := by
    unfold flagMove at hno ⊢
    split
    · next hc => rw [if_pos hc] at hno; cases hno
    · rfl
  changed {s} hs hyes := by
    unfold flagMove at hyes ⊢
    split at hyes
    · next hc =>
        rw [if_pos hc]
        rw [Bool.and_eq_true, Bool.not_eq_true'] at hc
        refine ⟨0, item.1, ?_, ?_⟩
        · show ¬ s.getD item.1 false = true
          rw [hc.1]
          exact Bool.false_ne_true
        · show (s.setIfInBounds item.1 true).getD item.1 false = true
          rw [getD_setIfInBounds (by rw [show s.size = count from hs]; exact hitem), if_pos rfl]
    · cases hyes

/-- Where such a move changes nothing, a rule that passes the test has its flag set. -/
theorem flag_of_flagMove {test : Flags → Rule → Bool} {flags : Flags} {nt : Nat} {rule : Rule}
    (h : flagMove test (nt, rule) flags = (flags, false)) (htest : test flags rule = true) :
    flags.getD nt false = true := by
  unfold flagMove at h
  by_contra hne
  rw [Bool.not_eq_true] at hne
  rw [if_pos (by rw [hne, htest]; rfl)] at h
  exact Bool.noConfusion (congrArg Prod.snd h)

/-- A pass that sets flags by such a test is local. -/
theorem flagSweep_local {test : Flags → Rule → Bool} {rules : List (Nat × Rule)} {count : Nat}
    (htest : ∀ {s t : Flags}, (∀ n, s.getD n false = t.getD n false) →
      ∀ rule, test s rule = test t rule)
    (hrules : ∀ item ∈ rules, item.1 < count) :
    (∀ item ∈ rules, (flagView count).Local (flagMove test item)) ∧
      (flagView count).Local (sweep (flagMove test) rules) := by
  have hmoves : ∀ item ∈ rules, (flagView count).Local (flagMove test item) :=
    fun item hitem => flagMove_local (hrules item hitem) fun h => htest h item.2
  exact ⟨hmoves, View.sweep_local hmoves⟩

/-- **Flags that are set by a test are closed under it.**  Once the passes have converged, a rule that
passes the test has its flag set. -/
theorem flags_closed {test : Flags → Rule → Bool} {rules : List (Nat × Rule)} {count : Nat}
    (cap : Nat) (htest : ∀ {s t : Flags}, (∀ n, s.getD n false = t.getD n false) →
      ∀ rule, test s rule = test t rule)
    (hrules : ∀ item ∈ rules, item.1 < count)
    (hconv : (run (sweep (flagMove test) rules) cap (Array.replicate count false)).converged = true)
    {nt : Nat} {rule : Rule} (hrule : (nt, rule) ∈ rules) :
    let flags := (run (sweep (flagMove test) rules) cap (Array.replicate count false)).value
    test flags rule = true → flags.getD nt false = true := by
  intro flags hpasses
  obtain ⟨hmoves, hlocal⟩ := flagSweep_local htest hrules
  obtain ⟨hsize, hpass⟩ := hlocal.stable_of_converged Array.size_replicate hconv
  exact flag_of_flagMove (View.sweep_unchanged hmoves hsize (by rw [hpass]) _ hrule) hpasses

/-! ### Sets -/

/-- The marks of sets: the lookaheads in them. -/
def setView (count : Nat) : View LookaheadSets where
  Valid sets := sets.size = count
  Holds sets x n := x ∈ sets.getD n .empty
  count := count
  below {sets x n} hsize h := by
    by_contra hge
    rw [Array.getD_eq_getD_getElem?, Array.getElem?_eq_none (by omega)] at h
    exact NumberSet.not_mem_empty x h

namespace Analysis

/-- Sets of the same size, one of which has all members of the other, are equal. -/
theorem union_eq_of_size_eq {s t : LookaheadSet} (h : (s.union t).size = s.size) : s.union t = s := by
  by_contra hne
  have hlt := NumberSet.size_lt_of_subset (fun n hn => NumberSet.mem_union.2 (Or.inl hn)) hne
  omega

theorem enlarge_eq (sets : LookaheadSets) (nt : Nat) (more : LookaheadSet) :
    enlarge sets nt more
      = if nt < sets.size ∧ (sets.getD nt .empty).union more ≠ sets.getD nt .empty then
          (sets.setIfInBounds nt ((sets.getD nt .empty).union more), true)
        else (sets, false) := by
  unfold enlarge
  split
  · next known hknown =>
      have hlt : nt < sets.size := (Array.getElem?_eq_some_iff.1 hknown).1
      have hnt : sets.getD nt .empty = known := by
        rw [Array.getD_eq_getD_getElem?, hknown]
        rfl
      rw [hnt]
      by_cases hsame : known.union more = known
      · exact (if_pos (congrArg NumberSet.size hsame)).trans (if_neg fun h => h.2 hsame).symm
      · have hsize : ¬ (known.union more).size = known.size :=
          fun hsize => hsame (union_eq_of_size_eq hsize)
        exact (if_neg hsize).trans (if_pos ⟨hlt, hsame⟩).symm
  · next hnone =>
      have hge : sets.size ≤ nt := Array.getElem?_eq_none_iff.1 hnone
      rw [if_neg fun h => by omega]

theorem size_enlarge (sets : LookaheadSets) (nt : Nat) (more : LookaheadSet) :
    (enlarge sets nt more).1.size = sets.size := by
  rw [enlarge_eq]
  split
  · exact Array.size_setIfInBounds ..
  · rfl

/-- What the sets hold after one of them was enlarged. -/
theorem mem_enlarge {sets : LookaheadSets} {nt : Nat} {more : LookaheadSet} {x n : Nat} :
    x ∈ (enlarge sets nt more).1.getD n .empty ↔
      x ∈ sets.getD n .empty ∨ n < sets.size ∧ n = nt ∧ x ∈ more := by
  rw [enlarge_eq]
  split
  · next h =>
      show x ∈ (sets.setIfInBounds nt _).getD n _ ↔ _
      rw [getD_setIfInBounds h.1]
      by_cases hn : n = nt
      · subst hn
        rw [if_pos rfl, NumberSet.mem_union]
        simp only [h.1, true_and]
      · rw [if_neg hn]
        simp only [hn, false_and, and_false, or_false]
  · next h =>
      refine ⟨Or.inl, ?_⟩
      rintro (hx | ⟨hlt, rfl, hx⟩)
      · exact hx
      · have hsame : (sets.getD n .empty).union more = sets.getD n .empty := by
          by_contra hne
          exact h ⟨hlt, hne⟩
        show x ∈ sets.getD n .empty
        rw [← hsame]
        exact NumberSet.mem_union.2 (Or.inr hx)

/-- Enlarging a set by what depends on each lookahead by itself is a local move. -/
theorem enlarge_local {count : Nat} (nt : Nat) (more : LookaheadSets → LookaheadSet)
    (hmore : ∀ {s t : LookaheadSets} {x : Nat}, (∀ n, x ∈ s.getD n .empty ↔ x ∈ t.getD n .empty) →
      (x ∈ more s ↔ x ∈ more t)) :
    (setView count).Local fun sets => enlarge sets nt (more sets) where
  valid {s} hs := (size_enlarge s nt (more s)).trans hs
  grows _ h := mem_enlarge.2 (Or.inl h)
  depends {s t x} hs ht heq n := by
    have hsize : s.size = t.size := hs.trans ht.symm
    show x ∈ (enlarge s nt (more s)).1.getD n .empty ↔ x ∈ (enlarge t nt (more t)).1.getD n .empty
    rw [mem_enlarge, mem_enlarge, hmore heq, hsize]
    exact or_congr_left (heq n)
  unchanged {s} _ hno := by
    rw [enlarge_eq] at hno ⊢
    split
    · next h => rw [if_pos h] at hno; cases hno
    · rfl
  changed {s} _ hyes := by
    rw [enlarge_eq] at hyes
    split at hyes
    · next h =>
        -- a union that differs from its left part has a member that is new there
        by_contra hall
        push Not at hall
        refine h.2 (NumberSet.ext fun x => ⟨fun hx => ?_, fun hx => NumberSet.mem_union.2 (Or.inl hx)⟩)
        rcases NumberSet.mem_union.1 hx with hx | hx
        · exact hx
        · by_contra hnot
          exact hall x nt hnot (mem_enlarge.2 (Or.inr ⟨h.1, rfl, hx⟩))
    · cases hyes

/-! ### Lookaheads handed down -/

variable {nullable : Flags} {first : LookaheadSets}

/-- A tree in a context hands a lookahead down to its references to a nonterminal. -/
def Handed (nullable : Flags) (first : LookaheadSets) :
    Rule → LookaheadSet → Nat → Nat → Prop
  | .reference nt _, context, m, x => m = nt ∧ x ∈ context
  | .alt l r, context, m, x =>
      Handed nullable first l context m x ∨ Handed nullable first r context m x
  | .seq l r, context, m, x =>
      Handed nullable first l (beforeRight nullable first r context) m x ∨
        Handed nullable first r context m x
  | .iter l r, context, m, x =>
      Handed nullable first l (insideLeft nullable first l r context) m x ∨
        Handed nullable first r (insideRight nullable first l r context) m x
  | _, _, _, _ => False

theorem mem_beforeRight {r : Rule} {context : LookaheadSet} {x : Nat} :
    x ∈ beforeRight nullable first r context ↔
      x ∈ r.first nullable first ∨ r.nullable nullable = true ∧ x ∈ context := by
  unfold beforeRight
  split <;> simp [*]

theorem mem_insideLeft {l r : Rule} {context : LookaheadSet} {x : Nat} :
    x ∈ insideLeft nullable first l r context ↔
      x ∈ context ∨ x ∈ r.first nullable first ∨
        r.nullable nullable = true ∧ x ∈ l.first nullable first := by
  unfold insideLeft
  split <;> simp [*, or_assoc]

theorem mem_insideRight {l r : Rule} {context : LookaheadSet} {x : Nat} :
    x ∈ insideRight nullable first l r context ↔
      x ∈ l.first nullable first ∨
        l.nullable nullable = true ∧ (x ∈ context ∨ x ∈ r.first nullable first) := by
  unfold insideRight
  split <;> simp [*, or_assoc]

theorem spread_alt (l r : Rule) (context : LookaheadSet) :
    spread nullable first (.alt l r) context = fun sets =>
      let s := spread nullable first l context sets
      let t := spread nullable first r context s.1
      (t.1, s.2 || t.2) := rfl

theorem spread_seq (l r : Rule) (context : LookaheadSet) :
    spread nullable first (.seq l r) context = fun sets =>
      let s := spread nullable first l (beforeRight nullable first r context) sets
      let t := spread nullable first r context s.1
      (t.1, s.2 || t.2) := rfl

theorem spread_iter (l r : Rule) (context : LookaheadSet) :
    spread nullable first (.iter l r) context = fun sets =>
      let s := spread nullable first l (insideLeft nullable first l r context) sets
      let t := spread nullable first r (insideRight nullable first l r context) s.1
      (t.1, s.2 || t.2) := rfl

/-- Handing down from a fixed context is a local move. -/
theorem spread_local (count : Nat) (rule : Rule) : ∀ context : LookaheadSet,
    (setView count).Local (spread nullable first rule context) := by
  induction rule with
  | reference nt opened =>
      intro context
      exact enlarge_local nt (fun _ => context) fun _ => Iff.rfl
  | alt l r ihl ihr =>
      intro context
      rw [spread_alt]
      exact (ihl _).andThen (ihr _)
  | seq l r ihl ihr =>
      intro context
      rw [spread_seq]
      exact (ihl _).andThen (ihr _)
  | iter l r ihl ihr =>
      intro context
      rw [spread_iter]
      exact (ihl _).andThen (ihr _)
  | _ =>
      intro context
      exact (setView count).idle_local

/-- What the sets hold after a tree has handed down what can follow its references. -/
theorem mem_spread {rule : Rule} {m x : Nat} : ∀ {context : LookaheadSet} {sets : LookaheadSets},
    x ∈ (spread nullable first rule context sets).1.getD m .empty ↔
      x ∈ sets.getD m .empty ∨ m < sets.size ∧ Handed nullable first rule context m x := by
  have hsize : ∀ (rule : Rule) (context : LookaheadSet) (sets : LookaheadSets),
      (spread nullable first rule context sets).1.size = sets.size :=
    fun rule context sets => (spread_local sets.size rule context).valid rfl
  induction rule with
  | reference nt opened =>
      intro context sets
      exact mem_enlarge
  | alt l r ihl ihr =>
      intro context sets
      rw [spread_alt, ihr, ihl, hsize, Handed, or_assoc, ← and_or_left]
  | seq l r ihl ihr =>
      intro context sets
      rw [spread_seq, ihr, ihl, hsize, Handed, or_assoc, ← and_or_left]
  | iter l r ihl ihr =>
      intro context sets
      rw [spread_iter, ihr, ihl, hsize, Handed, or_assoc, ← and_or_left]
  | _ =>
      intro context sets
      simp only [spread, Handed, and_false, or_false]

end Analysis

/-! ### What a tree looks at -/

/-- Whether a tree counts as deriving the empty word depends on the flags of its references. -/
theorem Tree.nullable_congr {s t : Flags} (h : ∀ n, s.getD n false = t.getD n false) (rule : Rule) :
    rule.nullable s = rule.nullable t := by
  induction rule with
  | reference nt opened => exact h nt
  | seq l r ihl ihr => rw [nullable, nullable, ihl, ihr]
  | alt l r ihl ihr => rw [nullable, nullable, ihl, ihr]
  | _ => rfl

theorem Tree.mem_first_seq {nullable : Flags} {first : LookaheadSets} {l r : Rule} {x : Nat} :
    x ∈ (Tree.seq l r).first nullable first ↔
      x ∈ l.first nullable first ∨ l.nullable nullable = true ∧ x ∈ r.first nullable first := by
  rw [Tree.first]
  split <;> simp [*]

/-- Whether a tree counts as beginning with a lookahead depends on that lookahead alone. -/
theorem Tree.mem_first_congr {nullable : Flags} {s t : LookaheadSets} {x : Nat}
    (h : ∀ n, x ∈ s.getD n .empty ↔ x ∈ t.getD n .empty) (rule : Rule) :
    x ∈ rule.first nullable s ↔ x ∈ rule.first nullable t := by
  induction rule with
  | reference nt opened => exact h nt
  | seq l r ihl ihr => rw [mem_first_seq, mem_first_seq, ihl, ihr]
  | alt l r ihl ihr => rw [first, first, NumberSet.mem_union, NumberSet.mem_union, ihl, ihr]
  | iter l r ihl ihr => exact ihl
  | _ => rfl

/-! ### Larger values -/

section

variable {nullable nullable' : Flags} {first first' : LookaheadSets} {σ : Nat → Nat} {x : Nat}

theorem Tree.rename_id {α : Type} (t : Tree α) : t.rename id id id = t := by
  induction t with
  | seq l r ihl ihr | alt l r ihl ihr | iter l r ihl ihr => rw [rename, ihl, ihr]
  | _ => rfl

/-- A tree that counts as nullable still does under other numbers of its references, if no flag is
lost. -/
theorem Tree.nullable_rename_of_le
    (h : ∀ n, nullable.getD n false = true → nullable'.getD (σ n) false = true) {t : Rule}
    (ht : t.nullable nullable = true) : (t.rename id id σ).nullable nullable' = true := by
  induction t with
  | reference nt opened => exact h nt ht
  | seq l r ihl ihr =>
      obtain ⟨hl, hr⟩ := Bool.and_eq_true_iff.1 ht
      simp [Tree.rename, Tree.nullable, ihl hl, ihr hr]
  | alt l r ihl ihr =>
      rcases Bool.or_eq_true_iff.1 ht with hl | hr
      · simp [Tree.rename, Tree.nullable, ihl hl]
      · simp [Tree.rename, Tree.nullable, ihr hr]
  | _ => exact ht

theorem Tree.nullable_mono (h : ∀ n, nullable.getD n false = true → nullable'.getD n false = true)
    {t : Rule} (ht : t.nullable nullable = true) : t.nullable nullable' = true := by
  have hlarger := nullable_rename_of_le (σ := id) h ht
  rw [rename_id] at hlarger
  exact hlarger

/-- A tree still begins with a lookahead under other numbers of its references, if no flag is lost and
that lookahead is lost from no set. -/
theorem Tree.mem_first_rename_of_le
    (hnullable : ∀ n, nullable.getD n false = true → nullable'.getD (σ n) false = true)
    (hfirst : ∀ n, x ∈ first.getD n .empty → x ∈ first'.getD (σ n) .empty) {t : Rule}
    (ht : x ∈ t.first nullable first) : x ∈ (t.rename id id σ).first nullable' first' := by
  induction t with
  | reference nt opened => exact hfirst nt ht
  | seq l r ihl ihr =>
      rw [Tree.mem_first_seq] at ht
      rw [Tree.rename, Tree.mem_first_seq]
      rcases ht with hl | ⟨hnull, hr⟩
      · exact Or.inl (ihl hl)
      · exact Or.inr ⟨Tree.nullable_rename_of_le hnullable hnull, ihr hr⟩
  | alt l r ihl ihr =>
      rw [Tree.first, NumberSet.mem_union] at ht
      rw [Tree.rename, Tree.first, NumberSet.mem_union]
      exact ht.imp ihl ihr
  | iter l r ihl ihr => exact ihl ht
  | _ => exact ht

theorem Tree.mem_first_mono
    (hnullable : ∀ n, nullable.getD n false = true → nullable'.getD n false = true)
    (hfirst : ∀ n, x ∈ first.getD n .empty → x ∈ first'.getD n .empty) {t : Rule}
    (ht : x ∈ t.first nullable first) : x ∈ t.first nullable' first' := by
  have hlarger := mem_first_rename_of_le (σ := id) hnullable hfirst ht
  rw [rename_id] at hlarger
  exact hlarger

/-- A tree still hands a lookahead down under other numbers of its references, if no flag is lost and
that lookahead is lost neither from the sets nor from the context. -/
theorem Analysis.Handed.rename
    (hnullable : ∀ n, nullable.getD n false = true → nullable'.getD (σ n) false = true)
    (hfirst : ∀ n, x ∈ first.getD n .empty → x ∈ first'.getD (σ n) .empty) {t : Rule} {m : Nat} :
    ∀ {context context' : LookaheadSet}, (x ∈ context → x ∈ context') →
      Handed nullable first t context m x →
        Handed nullable' first' (t.rename id id σ) context' (σ m) x := by
  have hnull : ∀ {t : Rule}, t.nullable nullable = true →
      (t.rename id id σ).nullable nullable' = true := Tree.nullable_rename_of_le hnullable
  have hbegin : ∀ {t : Rule}, x ∈ t.first nullable first →
      x ∈ (t.rename id id σ).first nullable' first' := Tree.mem_first_rename_of_le hnullable hfirst
  induction t with
  | reference nt opened =>
      intro context context' hcontext h
      exact ⟨congrArg σ h.1, hcontext h.2⟩
  | alt l r ihl ihr =>
      intro context context' hcontext h
      exact h.imp (ihl hcontext) (ihr hcontext)
  | seq l r ihl ihr =>
      intro context context' hcontext h
      refine h.imp (ihl fun hx => ?_) (ihr hcontext)
      rw [mem_beforeRight] at hx ⊢
      exact hx.imp hbegin fun hx => ⟨hnull hx.1, hcontext hx.2⟩
  | iter l r ihl ihr =>
      intro context context' hcontext h
      refine h.imp (ihl fun hx => ?_) (ihr fun hx => ?_)
      · rw [mem_insideLeft] at hx ⊢
        exact hx.imp hcontext fun hx => hx.imp hbegin fun hx => ⟨hnull hx.1, hbegin hx.2⟩
      · rw [mem_insideRight] at hx ⊢
        exact hx.imp hbegin fun hx => ⟨hnull hx.1, hx.2.imp hcontext hbegin⟩
  | _ =>
      intro context context' _ h
      exact h

/-- More in the context, more handed down; for each lookahead by itself. -/
theorem Analysis.Handed.mono {t : Rule} {m : Nat} {context context' : LookaheadSet}
    (hcontext : x ∈ context → x ∈ context') (h : Handed nullable first t context m x) :
    Handed nullable first t context' m x := by
  have hlarger := h.rename (σ := id) (fun _ hn => hn) (fun _ hn => hn) hcontext
  rw [Tree.rename_id] at hlarger
  exact hlarger

end

/-! ### Passes -/

namespace Analysis

variable {nullable : Flags} {first : LookaheadSets} {rules : List (Nat × Rule)} {count : Nat}

def firstMove (nullable : Flags) (item : Nat × Rule) (sets : LookaheadSets) : LookaheadSets × Bool :=
  enlarge sets item.1 (item.2.first nullable sets)

def followMove (nullable : Flags) (first : LookaheadSets) (item : Nat × Rule)
    (sets : LookaheadSets) : LookaheadSets × Bool :=
  spread nullable first item.2 (sets.getD item.1 .empty) sets

theorem nullablePass_eq_sweep (rules : List (Nat × Rule)) :
    nullablePass rules = sweep (flagMove Tree.nullable) rules :=
  funext fun flags => foldl_flags_eq_sweep Tree.nullable rules flags

theorem firstPass_eq_sweep (nullable : Flags) (rules : List (Nat × Rule)) :
    firstPass nullable rules = sweep (firstMove nullable) rules := rfl

theorem followPass_eq_sweep (nullable : Flags) (first : LookaheadSets) (rules : List (Nat × Rule)) :
    followPass nullable first rules = sweep (followMove nullable first) rules := rfl

theorem firstMove_local (item : Nat × Rule) : (setView count).Local (firstMove nullable item) :=
  enlarge_local item.1 (fun sets => item.2.first nullable sets) fun h => Tree.mem_first_congr h item.2

theorem followMove_local (item : Nat × Rule) :
    (setView count).Local (followMove nullable first item) where
  valid hs := (spread_local count item.2 _).valid hs
  grows hs h := (spread_local count item.2 _).grows hs h
  depends {s t x} hs ht heq n := by
    have hsize : s.size = t.size := hs.trans ht.symm
    show x ∈ (spread nullable first item.2 _ s).1.getD n .empty
      ↔ x ∈ (spread nullable first item.2 _ t).1.getD n .empty
    rw [mem_spread, mem_spread, hsize]
    refine or_congr (heq n) (and_congr_right fun _ => ⟨fun h => ?_, fun h => ?_⟩)
    · exact h.mono (heq item.1).1
    · exact h.mono (heq item.1).2
  unchanged hs hno := (spread_local count item.2 _).unchanged hs hno
  changed hs hyes := (spread_local count item.2 _).changed hs hyes

/-- A pass of the first analysis over rules of the table is local. -/
theorem nullablePass_local (hrules : ∀ item ∈ rules, item.1 < count) :
    (flagView count).Local (nullablePass rules) := by
  rw [nullablePass_eq_sweep]
  exact (flagSweep_local Tree.nullable_congr hrules).2

/-- A pass of the second analysis is local. -/
theorem firstPass_local (nullable : Flags) (rules : List (Nat × Rule)) (count : Nat) :
    (setView count).Local (firstPass nullable rules) := by
  rw [firstPass_eq_sweep]
  exact View.sweep_local fun item _ => firstMove_local item

/-- A pass of the third analysis is local. -/
theorem followPass_local (nullable : Flags) (first : LookaheadSets) (rules : List (Nat × Rule))
    (count : Nat) : (setView count).Local (followPass nullable first rules) := by
  rw [followPass_eq_sweep]
  exact View.sweep_local fun item _ => followMove_local item

/-- Where a pass of the second analysis changes nothing, the sets are closed under the rules. -/
theorem mem_of_firstPass {sets : LookaheadSets} (hsize : sets.size = count)
    (h : firstPass nullable rules sets = (sets, false)) {nt x : Nat} {rule : Rule}
    (hrule : (nt, rule) ∈ rules) (hnt : nt < count) (hx : x ∈ rule.first nullable sets) :
    x ∈ sets.getD nt .empty := by
  rw [firstPass_eq_sweep] at h
  have hmove := View.sweep_unchanged (v := setView count) (fun item _ => firstMove_local item) hsize
    (by rw [h]) _ hrule
  have hmem : x ∈ (firstMove nullable (nt, rule) sets).1.getD nt .empty :=
    mem_enlarge.2 (Or.inr ⟨by omega, rfl, hx⟩)
  rw [hmove] at hmem
  exact hmem

/-- Where a pass of the third analysis changes nothing, the sets hold what is handed down. -/
theorem mem_of_followPass {sets : LookaheadSets} (hsize : sets.size = count)
    (h : followPass nullable first rules sets = (sets, false)) {nt m x : Nat} {rule : Rule}
    (hrule : (nt, rule) ∈ rules) (hm : m < count)
    (hx : Handed nullable first rule (sets.getD nt .empty) m x) : x ∈ sets.getD m .empty := by
  rw [followPass_eq_sweep] at h
  have hmove := View.sweep_unchanged (v := setView count) (fun item _ => followMove_local item) hsize
    (by rw [h]) _ hrule
  have hmem : x ∈ (followMove nullable first (nt, rule) sets).1.getD m .empty :=
    mem_spread.2 (Or.inr ⟨by omega, hx⟩)
  rw [hmove] at hmem
  exact hmem

/-! ### Grammars -/

theorem mem_expandedRules {g : Grammar} {nt : Nat} {rule : Rule} :
    (nt, rule) ∈ expandedRules g ↔ nt < g.nonterminals.size ∧ g.expandedRule? nt = some rule := by
  unfold expandedRules
  simp only [List.mem_filterMap, SymbolTable.ids, List.mem_range, Option.map_eq_some_iff,
    Prod.mk.injEq]
  constructor
  · rintro ⟨n, hn, _, hrule, rfl, rfl⟩
    exact ⟨hn, hrule⟩
  · rintro ⟨hnt, hrule⟩
    exact ⟨nt, hnt, rule, hrule, rfl, rfl⟩

/-- The values of the three analyses are closed under the expanded rules of a grammar. -/
structure Saturated (g : Grammar) (a : Analysis) : Prop where
  nullable : ∀ {nt : Nat} {rule : Rule}, nt < g.nonterminals.size → g.expandedRule? nt = some rule →
    a.isNullable rule = true → a.nullable nt = true
  first : ∀ {nt x : Nat} {rule : Rule}, nt < g.nonterminals.size → g.expandedRule? nt = some rule →
    x ∈ a.firstOf rule → x ∈ a.first nt
  finish : 0 < g.nonterminals.size → Lookahead.finish.slot ∈ a.follow 0
  follow : ∀ {nt m x : Nat} {rule : Rule}, nt < g.nonterminals.size →
    g.expandedRule? nt = some rule → m < g.nonterminals.size →
    Handed a.nullableRun.value a.firstRun.value rule (a.follow nt) m x → x ∈ a.follow m

theorem mem_initialFollow {count : Nat} (hcount : 0 < count) :
    Lookahead.finish.slot ∈ (initialFollow count).getD 0 .empty := by
  unfold initialFollow
  rw [getD_setIfInBounds (by rw [Array.size_replicate]; exact hcount), if_pos rfl]
  exact NumberSet.mem_singleton.2 rfl

theorem size_initialFollow (count : Nat) : (initialFollow count).size = count := by
  rw [initialFollow, Array.size_setIfInBounds, Array.size_replicate]

/-! ### Convergence -/

variable {g : Grammar}

/-- Each of the three analyses ended with a pass that changed nothing. -/
structure Converged (a : Analysis) : Prop where
  nullable : a.nullableRun.converged = true
  first : a.firstRun.converged = true
  follow : a.followRun.converged = true

theorem lt_of_mem_expandedRules : ∀ item ∈ expandedRules g, item.1 < g.nonterminals.size :=
  fun _ hitem => (mem_expandedRules.1 hitem).1

theorem settles_nullableRun (hsize : g.nonterminals.size ≤ 999) :
    (compute g).nullableRun.Settles (nullablePass (expandedRules g)) (g.nonterminals.size + 1) :=
  (nullablePass_local lt_of_mem_expandedRules).settles Array.size_replicate (Nat.lt_succ_of_le hsize)

theorem settles_firstRun (hsize : g.nonterminals.size ≤ 999) :
    (compute g).firstRun.Settles (firstPass (compute g).nullableRun.value (expandedRules g))
      (g.nonterminals.size + 1) :=
  (firstPass_local _ _ g.nonterminals.size).settles Array.size_replicate (Nat.lt_succ_of_le hsize)

theorem settles_followRun (hsize : g.nonterminals.size ≤ 999) :
    (compute g).followRun.Settles
      (followPass (compute g).nullableRun.value (compute g).firstRun.value (expandedRules g))
      (g.nonterminals.size + 1) :=
  (followPass_local _ _ _ g.nonterminals.size).settles (size_initialFollow _)
    (Nat.lt_succ_of_le hsize)

theorem converged_compute (hsize : g.nonterminals.size ≤ 999) : (compute g).Converged :=
  ⟨(settles_nullableRun hsize).converged, (settles_firstRun hsize).converged,
    (settles_followRun hsize).converged⟩

/-- **Analyses that converged are saturated.** -/
theorem saturated_of_converged (h : (compute g).Converged) : (compute g).Saturated g := by
  obtain ⟨hvf, hpf⟩ := (firstPass_local (compute g).nullableRun.value (expandedRules g)
    g.nonterminals.size).stable_of_converged Array.size_replicate h.first
  have hlocal := followPass_local (compute g).nullableRun.value (compute g).firstRun.value
    (expandedRules g) g.nonterminals.size
  obtain ⟨hvo, hpo⟩ := hlocal.stable_of_converged (size_initialFollow _) h.follow
  refine ⟨fun hnt hrule hnull => ?_, fun hnt hrule hx => ?_, fun hpos => ?_,
    fun hnt hrule hm hx => ?_⟩
  · have hconv := h.nullable
    have hflags := flags_closed maxPasses Tree.nullable_congr (lt_of_mem_expandedRules (g := g))
    rw [← nullablePass_eq_sweep] at hflags
    exact hflags hconv (mem_expandedRules.2 ⟨hnt, hrule⟩) hnull
  · exact mem_of_firstPass hvf hpf (mem_expandedRules.2 ⟨hnt, hrule⟩) hnt hx
  · refine (run_invariant (fun s : LookaheadSets => s.size = g.nonterminals.size ∧
      Lookahead.finish.slot ∈ s.getD 0 .empty) (fun s hs => ?_) maxPasses _
      ⟨size_initialFollow _, mem_initialFollow hpos⟩).2
    exact ⟨hlocal.valid hs.1, hlocal.grows hs.1 hs.2⟩
  · exact mem_of_followPass hvo hpo (mem_expandedRules.2 ⟨hnt, hrule⟩) hm hx

/-- The analyses of a grammar with at most 999 nonterminals are saturated. -/
theorem saturated_compute (hsize : g.nonterminals.size ≤ 999) : (compute g).Saturated g :=
  saturated_of_converged (converged_compute hsize)

end Analysis

end RuleGrammar
