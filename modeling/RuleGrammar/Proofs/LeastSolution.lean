import RuleGrammar.Proofs.Saturation
import RuleGrammar.Proofs.WellFormed

/-!
# The analyses are least solutions

The passes go over the rules in the order of their numbers, and each rule reads what the rules before it
have just added.  All the same nothing is added without a reason: what is in a set at any time is in every
family of sets that is closed under the rules.  Once the passes have converged the computed sets are
closed themselves, and so they are the least ones.

* `flags_induction`, `Analysis.nullable_induction`, `Analysis.first_induction`,
  `Analysis.follow_induction`: what is closed under the rules holds of all that the passes hold.
* `NullableClosed`, `FirstClosed`, `FollowClosed`: families that are closed under the rules.
* `IsLeastSolution`, `isLeastSolution_of_converged`: the computed values are the least of them.
-/

namespace RuleGrammar

open FixedPoint

variable {g : Grammar} {P : Nat → Prop} {Q : Nat → Nat → Prop}

/-! ### Why a flag is set -/

theorem flag_of_flagMove_flag {test : Flags → Rule → Bool} {item : Nat × Rule} {flags : Flags}
    {m : Nat} (h : (flagMove test item flags).1.getD m false = true) :
    flags.getD m false = true ∨ m = item.1 ∧ test flags item.2 = true := by
  unfold flagMove at h
  split at h
  · next hc =>
      rw [Bool.and_eq_true] at hc
      by_cases hm : m = item.1
      · exact Or.inr ⟨hm, hc.2⟩
      · left
        simpa [Array.getD_eq_getD_getElem?, Array.getElem?_setIfInBounds, Ne.symm hm] using h
  · exact Or.inl h

/-- What is closed under a test of the rules holds of all nonterminals whose flags are set by it. -/
theorem flags_induction {test : Flags → Rule → Bool} {rules : List (Nat × Rule)} {count cap : Nat}
    (hstep : ∀ flags : Flags, (∀ m, flags.getD m false = true → P m) → ∀ nt rule,
      (nt, rule) ∈ rules → test flags rule = true → P nt) {nt : Nat}
    (h : (run (sweep (flagMove test) rules) cap (Array.replicate count false)).value.getD nt false
      = true) : P nt := by
  refine run_invariant (fun flags : Flags => ∀ m, flags.getD m false = true → P m)
    (fun flags hflags => ?_) cap (Array.replicate count false) ?_ nt h
  · refine sweep_invariant (fun flags : Flags => ∀ m, flags.getD m false = true → P m) ?_ flags hflags
    intro item hitem flags hflags m hm
    rcases flag_of_flagMove_flag hm with hm | ⟨rfl, htest⟩
    · exact hflags m hm
    · exact hstep flags hflags item.1 item.2 hitem htest
  · intro m hm
    rw [getD_replicate_false] at hm
    cases hm

namespace Analysis

/-- What is closed under the rules holds of all nullable nonterminals. -/
theorem nullable_induction
    (hstep : ∀ flags : Flags, (∀ m, flags.getD m false = true → P m) → ∀ nt rule,
      (nt, rule) ∈ expandedRules g → rule.nullable flags = true → P nt) {nt : Nat}
    (h : (compute g).nullable nt = true) : P nt := by
  have hrun : (run (sweep (flagMove Tree.nullable) (expandedRules g)) maxPasses
      (Array.replicate g.nonterminals.size false)).value.getD nt false = true := by
    rw [← nullablePass_eq_sweep]
    exact h
  exact flags_induction hstep hrun

/-! ### Why a lookahead is in a set -/

theorem not_mem_replicate_empty {count m x : Nat} :
    x ∉ (Array.replicate count NumberSet.empty).getD m .empty := by
  rw [Array.getD_eq_getD_getElem?, Array.getElem?_replicate]
  split <;> exact NumberSet.not_mem_empty x

/-- What is closed under the rules holds of all lookaheads that nonterminals begin with. -/
theorem first_induction
    (hstep : ∀ sets : LookaheadSets, (∀ m x, x ∈ sets.getD m .empty → Q m x) → ∀ nt rule x,
      (nt, rule) ∈ expandedRules g → x ∈ rule.first (compute g).nullableRun.value sets → Q nt x)
    {nt x : Nat} (h : x ∈ (compute g).first nt) : Q nt x := by
  refine run_invariant (fun sets : LookaheadSets => ∀ m x, x ∈ sets.getD m .empty → Q m x)
    (fun sets hsets => ?_) maxPasses (Array.replicate g.nonterminals.size NumberSet.empty) ?_ nt x h
  · rw [firstPass_eq_sweep]
    refine sweep_invariant (fun sets : LookaheadSets => ∀ m x, x ∈ sets.getD m .empty → Q m x) ?_
      sets hsets
    intro item hitem sets hsets m x hx
    rcases mem_enlarge.1 hx with hold | ⟨_, rfl, hmore⟩
    · exact hsets m x hold
    · exact hstep sets hsets item.1 item.2 x hitem hmore
  · intro m x hx
    exact absurd hx not_mem_replicate_empty

/-- At the beginning only the start symbol is followed by something, and that is the end. -/
theorem eq_of_mem_initialFollow {count m x : Nat} (h : x ∈ (initialFollow count).getD m .empty) :
    0 < count ∧ m = 0 ∧ x = Lookahead.finish.slot := by
  by_cases hpos : 0 < count
  · rw [initialFollow, getD_setIfInBounds (by simpa using hpos)] at h
    split at h
    · next hm => exact ⟨hpos, hm, NumberSet.mem_singleton.1 h⟩
    · exact absurd h not_mem_replicate_empty
  · have hzero : count = 0 := by omega
    rw [initialFollow, hzero] at h
    exact absurd h (NumberSet.not_mem_empty x)

/-- What holds of the end after the start symbol and is closed under the rules holds of all lookaheads
that follow nonterminals. -/
theorem follow_induction (hfinish : 0 < g.nonterminals.size → Q 0 Lookahead.finish.slot)
    (hstep : ∀ nt rule (context : LookaheadSet), (nt, rule) ∈ expandedRules g →
      (∀ x, x ∈ context → Q nt x) → ∀ m x, m < g.nonterminals.size →
      Handed (compute g).nullableRun.value (compute g).firstRun.value rule context m x → Q m x)
    {nt x : Nat} (h : x ∈ (compute g).follow nt) : Q nt x := by
  refine (run_invariant (fun sets : LookaheadSets => sets.size = g.nonterminals.size ∧
    ∀ m x, x ∈ sets.getD m .empty → Q m x) (fun sets hsets => ?_) maxPasses
    (initialFollow g.nonterminals.size) ⟨size_initialFollow _, ?_⟩).2 nt x h
  · rw [followPass_eq_sweep]
    refine sweep_invariant (fun sets : LookaheadSets => sets.size = g.nonterminals.size ∧
      ∀ m x, x ∈ sets.getD m .empty → Q m x) ?_ sets hsets
    intro item hitem sets hsets
    refine ⟨(followMove_local item).valid hsets.1, fun m x hx => ?_⟩
    rcases mem_spread.1 hx with hold | ⟨hm, hhanded⟩
    · exact hsets.2 m x hold
    · rw [hsets.1] at hm
      exact hstep item.1 item.2 _ hitem (hsets.2 item.1) m x hm hhanded
  · intro m x hx
    obtain ⟨hpos, rfl, rfl⟩ := eq_of_mem_initialFollow hx
    exact hfinish hpos

/-! ### Closed families -/

/-- Flags of the nonterminals in which the flag of a nonterminal is set if its expanded rule counts as
nullable by them. -/
structure NullableClosed (g : Grammar) (flags : Flags) : Prop where
  size : flags.size = g.nonterminals.size
  closed : ∀ nt rule, (nt, rule) ∈ expandedRules g → rule.nullable flags = true →
    flags.getD nt false = true

/-- Sets of the nonterminals in which the set of a nonterminal holds what its expanded rule begins with
by them. -/
structure FirstClosed (g : Grammar) (nullable : Flags) (sets : LookaheadSets) : Prop where
  size : sets.size = g.nonterminals.size
  closed : ∀ nt rule, (nt, rule) ∈ expandedRules g → ∀ x, x ∈ rule.first nullable sets →
    x ∈ sets.getD nt .empty

/-- Sets of the nonterminals with the end in that of the start symbol, to which no expanded rule has
anything to add when it hands down what follows its own nonterminal. -/
structure FollowClosed (g : Grammar) (nullable : Flags) (first sets : LookaheadSets) : Prop where
  size : sets.size = g.nonterminals.size
  finish : ∀ start, g.start? = some start → Lookahead.finish.slot ∈ sets.getD start .empty
  closed : ∀ nt rule, (nt, rule) ∈ expandedRules g →
    (spread nullable first rule (sets.getD nt .empty) sets).1 = sets

/-- The values of the analyses are closed under the rules, and are contained in all others that are. -/
structure IsLeastSolution (g : Grammar) (a : Analysis) : Prop where
  nullable : NullableClosed g a.nullableRun.value
  nullable_le : ∀ flags, NullableClosed g flags → ∀ nt, a.nullable nt = true →
    flags.getD nt false = true
  first : FirstClosed g a.nullableRun.value a.firstRun.value
  first_le : ∀ sets, FirstClosed g a.nullableRun.value sets → ∀ nt x, x ∈ a.first nt →
    x ∈ sets.getD nt .empty
  follow : FollowClosed g a.nullableRun.value a.firstRun.value a.followRun.value
  follow_le : ∀ sets, FollowClosed g a.nullableRun.value a.firstRun.value sets → ∀ nt x,
    x ∈ a.follow nt → x ∈ sets.getD nt .empty

/-! ### The computed values are closed -/

theorem nullableClosed_of_converged (h : (compute g).Converged) :
    NullableClosed g (compute g).nullableRun.value where
  size := ((nullablePass_local lt_of_mem_expandedRules).stable_of_converged Array.size_replicate
    h.nullable).1
  closed nt rule hmem hnull := by
    obtain ⟨hnt, hrule⟩ := mem_expandedRules.1 hmem
    exact (saturated_of_converged h).nullable hnt hrule hnull

theorem firstClosed_of_converged (h : (compute g).Converged) :
    FirstClosed g (compute g).nullableRun.value (compute g).firstRun.value where
  size := ((firstPass_local _ _ _).stable_of_converged Array.size_replicate h.first).1
  closed nt rule hmem x hx := by
    obtain ⟨hnt, hrule⟩ := mem_expandedRules.1 hmem
    exact (saturated_of_converged h).first hnt hrule hx

theorem followClosed_of_converged (h : (compute g).Converged) :
    FollowClosed g (compute g).nullableRun.value (compute g).firstRun.value
      (compute g).followRun.value := by
  obtain ⟨hsize, hpass⟩ := (followPass_local _ _ (expandedRules g) _).stable_of_converged
    (size_initialFollow _) h.follow
  rw [followPass_eq_sweep] at hpass
  refine ⟨hsize, fun start hstart => ?_, fun nt rule hmem => ?_⟩
  · obtain ⟨rfl, hpos⟩ := Grammar.start?_eq_some_iff.1 hstart
    exact (saturated_of_converged h).finish hpos
  · have hmove := View.sweep_unchanged (fun item _ => followMove_local item) hsize
      (congrArg Prod.snd hpass) _ hmem
    exact congrArg Prod.fst hmove

/-! ### Nothing else is in them -/

theorem nullable_le_of_closed {flags : Flags} (hflags : NullableClosed g flags) {nt : Nat}
    (h : (compute g).nullable nt = true) : flags.getD nt false = true := by
  refine nullable_induction (P := fun nt => flags.getD nt false = true) ?_ h
  intro known hknown nt rule hmem hnull
  exact hflags.closed nt rule hmem (Tree.nullable_mono hknown hnull)

theorem first_le_of_closed {sets : LookaheadSets}
    (hsets : FirstClosed g (compute g).nullableRun.value sets) {nt x : Nat}
    (h : x ∈ (compute g).first nt) : x ∈ sets.getD nt .empty := by
  refine first_induction (Q := fun nt x => x ∈ sets.getD nt .empty) ?_ h
  intro known hknown nt rule x hmem hx
  exact hsets.closed nt rule hmem x (Tree.mem_first_mono (fun _ hn => hn) (fun n => hknown n x) hx)

theorem follow_le_of_closed {sets : LookaheadSets}
    (hsets : FollowClosed g (compute g).nullableRun.value (compute g).firstRun.value sets) {nt x : Nat}
    (h : x ∈ (compute g).follow nt) : x ∈ sets.getD nt .empty := by
  refine follow_induction (Q := fun nt x => x ∈ sets.getD nt .empty) (fun hpos => ?_) ?_ h
  · exact hsets.finish 0 (Grammar.start?_eq_some_iff.2 ⟨rfl, hpos⟩)
  · intro nt rule context hmem hcontext m x hm hx
    rw [← hsets.closed nt rule hmem]
    exact mem_spread.2 (Or.inr ⟨by rw [hsets.size]; exact hm, hx.mono (hcontext x)⟩)

/-- **Analyses that converged are the least solution of the rules.** -/
theorem isLeastSolution_of_converged (h : (compute g).Converged) :
    (compute g).IsLeastSolution g where
  nullable := nullableClosed_of_converged h
  nullable_le _ hflags _ := nullable_le_of_closed hflags
  first := firstClosed_of_converged h
  first_le _ hsets _ _ := first_le_of_closed hsets
  follow := followClosed_of_converged h
  follow_le _ hsets _ _ := follow_le_of_closed hsets

end Analysis

end RuleGrammar
