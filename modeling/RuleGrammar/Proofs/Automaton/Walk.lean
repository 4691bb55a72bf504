import RuleGrammar.Automaton.Path
import RuleGrammar.Proofs.Closure
import RuleGrammar.Proofs.Names

/-!
# Walks through an automaton

An automaton accepts a list of symbols exactly if there is a walk that reads it from the start to a
final state, where transitions of empty symbols may be taken without reading.

* `Automaton.Sound`: states, symbols and destinations are those of the automaton; every automaton
  that can be made is sound.
* `Automaton.mem_transitions_iff`: the transitions of a sound automaton.
* `Automaton.explores_iff_eq_emptyClosure`: the states that are reached without reading, by a search with
  a stack.
* `Automaton.Walk`: walks with the symbols they read.
* `Automaton.accepts_iff_walk`: acceptance by walks.
-/

namespace RuleGrammar.Automaton

variable {a : Automaton}

/-! ### Sound automata -/

structure Sound (a : Automaton) : Prop where
  start_lt : start < a.stateCount
  final_lt : ∀ {state : Nat}, state ∈ a.finals → state < a.stateCount
  target_lt : ∀ {state symbol target : Nat}, target ∈ a.targets state symbol →
    state < a.stateCount ∧ symbol < a.symbols.size ∧ target < a.stateCount
  meaning : ∀ {symbol : String}, symbol ∈ a.symbols.names → ∃ meaning, classify symbol = some meaning

theorem mem_lookup_addLink {key other : Nat × Nat} {target n : Nat}
    (links : List ((Nat × Nat) × NumberSet)) :
    n ∈ ((addLink key target links).lookup other).getD .empty ↔
      n ∈ (links.lookup other).getD .empty ∨ (other = key ∧ n = target) := by
  induction links with
  | nil =>
      rw [addLink]
      by_cases heq : other = key
      · simp [heq]
      · simp [List.lookup_cons, beq_eq_false_iff_ne.2 heq, heq]
  | cons link links ih =>
      obtain ⟨place, targets⟩ := link
      rw [addLink]
      by_cases hplace : place = key
      · rw [if_pos hplace]
        subst hplace
        by_cases heq : other = place
        · simp only [List.lookup_cons, heq, beq_self_eq_true, Option.getD_some, NumberSet.mem_insert,
            true_and]
          exact or_comm
        · simp [List.lookup_cons, beq_eq_false_iff_ne.2 heq, heq]
      · rw [if_neg hplace]
        by_cases heq : other = place
        · subst heq
          simp [hplace]
        · simp only [List.lookup_cons, beq_eq_false_iff_ne.2 heq]
          exact ih

theorem sound_of_made (ha : a.Made) : a.Sound := by
  induction ha with
  | first =>
      refine ⟨by decide, fun h => ?_, fun h => ?_, fun h => ?_⟩
      · rw [NumberSet.mem_singleton.1 h]
        decide
      · exact absurd h (NumberSet.not_mem_empty _)
      · simp [SymbolTable.empty] at h
  | @addState a _ ih =>
      refine ⟨Nat.lt_succ_of_lt ih.start_lt, fun h => Nat.lt_succ_of_lt (ih.final_lt h), fun h => ?_,
        ih.meaning⟩
      obtain ⟨hstate, hsymbol, htarget⟩ := ih.target_lt h
      exact ⟨Nat.lt_succ_of_lt hstate, hsymbol, Nat.lt_succ_of_lt htarget⟩
  | @markFinal a _ state ih =>
      have hle : a.stateCount ≤ (a.markFinal state).stateCount := Nat.le_max_left _ _
      have hlt : state < (a.markFinal state).stateCount := Nat.le_max_right _ _
      refine ⟨Nat.lt_of_lt_of_le ih.start_lt hle, fun h => ?_, fun h => ?_, ih.meaning⟩
      · rcases NumberSet.mem_insert.1 h with rfl | h
        · exact hlt
        · exact Nat.lt_of_lt_of_le (ih.final_lt h) hle
      · obtain ⟨hstate, hsymbol, htarget⟩ := ih.target_lt h
        exact ⟨Nat.lt_of_lt_of_le hstate hle, hsymbol, Nat.lt_of_lt_of_le htarget hle⟩
  | @link a b source target symbol _ hlink ih =>
      unfold link? at hlink
      split at hlink
      · next meaning hmeaning =>
          cases hlink
          have hle : a.stateCount ≤ max a.stateCount (max source target + 1) := Nat.le_max_left _ _
          have hle' : max source target + 1 ≤ max a.stateCount (max source target + 1) :=
            Nat.le_max_right _ _
          refine ⟨Nat.lt_of_lt_of_le ih.start_lt hle, fun h => Nat.lt_of_lt_of_le (ih.final_lt h) hle,
            fun h => ?_, fun h => ?_⟩
          · rcases (mem_lookup_addLink a.links).1 h with h | ⟨hkey, rfl⟩
            · obtain ⟨hstate, hsymbol, htarget⟩ := ih.target_lt h
              exact ⟨Nat.lt_of_lt_of_le hstate hle,
                Nat.lt_of_lt_of_le hsymbol (a.symbols.extends_insert symbol).size_le,
                Nat.lt_of_lt_of_le htarget hle⟩
            · obtain ⟨rfl, rfl⟩ := Prod.mk.inj hkey
              refine ⟨?_, a.symbols.slot_lt_size_insert symbol, ?_⟩ <;> dsimp only [withState] <;> omega
          · rcases SymbolTable.mem_names_insert.1 h with h | rfl
            · exact ih.meaning h
            · exact ⟨meaning, hmeaning⟩
      · cases hlink

/-! ### Transitions -/

theorem mem_zipIdx_names_iff {t : SymbolTable} {symbol : String} {i : Nat} :
    (symbol, i) ∈ t.names.toList.zipIdx ↔ t.name? i = some symbol := by
  rw [List.mem_zipIdx_iff_getElem?, SymbolTable.name?_eq_some_iff]

/-- The transitions of a sound automaton. -/
theorem mem_transitions_iff (ha : a.Sound) {source target : Nat} {symbol : String} :
    (source, symbol, target) ∈ a.transitions ↔
      ∃ i, a.symbols.name? i = some symbol ∧ target ∈ a.targets source i := by
  unfold transitions
  simp only [List.mem_flatMap, List.mem_map, List.mem_range, Prod.exists, Prod.mk.injEq,
    mem_zipIdx_names_iff]
  constructor
  · rintro ⟨_, _, _, i, hname, _, htarget, rfl, rfl, rfl⟩
    exact ⟨i, hname, htarget⟩
  · rintro ⟨i, hname, htarget⟩
    exact ⟨source, (ha.target_lt htarget).1, symbol, i, hname, target, htarget, rfl, rfl, rfl⟩

theorem meaning_of_mem_transitions (ha : a.Sound) {source target : Nat} {symbol : String}
    (h : (source, symbol, target) ∈ a.transitions) : ∃ meaning, classify symbol = some meaning := by
  obtain ⟨i, hname, _⟩ := (mem_transitions_iff ha).1 h
  exact ha.meaning (SymbolTable.mem_names_of_name? hname)

/-- A transition that reads nothing. -/
def Silent (a : Automaton) (source target : Nat) : Prop :=
  ∃ symbol, classify symbol = some .empty ∧ (source, symbol, target) ∈ a.transitions

theorem mem_emptySymbols_iff {i : Nat} :
    i ∈ a.emptySymbols ↔
      ∃ symbol, a.symbols.name? i = some symbol ∧ classify symbol = some .empty := by
  unfold emptySymbols
  simp only [List.mem_map, List.mem_filter, Prod.exists, mem_zipIdx_names_iff, decide_eq_true_eq]
  constructor
  · rintro ⟨symbol, _, ⟨hname, hempty⟩, rfl⟩
    exact ⟨symbol, hname, hempty⟩
  · rintro ⟨symbol, hname, hempty⟩
    exact ⟨symbol, i, ⟨hname, hempty⟩, rfl⟩

theorem mem_silentTargets_iff (ha : a.Sound) {source target : Nat} :
    target ∈ a.emptySymbols.foldl (fun found i => found.union (a.targets source i)) NumberSet.empty ↔
      a.Silent source target := by
  rw [NumberSet.mem_foldl_union]
  simp only [NumberSet.not_mem_empty, false_or, mem_emptySymbols_iff]
  constructor
  · rintro ⟨i, ⟨symbol, hname, hempty⟩, htarget⟩
    exact ⟨symbol, hempty, (mem_transitions_iff ha).2 ⟨i, hname, htarget⟩⟩
  · rintro ⟨symbol, hempty, h⟩
    obtain ⟨i, hname, htarget⟩ := (mem_transitions_iff ha).1 h
    exact ⟨i, ⟨symbol, hname, hempty⟩, htarget⟩

theorem lt_of_silent (ha : a.Sound) {source target : Nat} (h : a.Silent source target) :
    target < a.stateCount := by
  obtain ⟨_, _, h⟩ := h
  obtain ⟨_, _, htarget⟩ := (mem_transitions_iff ha).1 h
  exact (ha.target_lt htarget).2.2

/-- The states that are reached without reading are those at the end of silent transitions. -/
theorem mem_emptyClosure_iff (ha : a.Sound) {states : NumberSet}
    (hstates : ∀ s, s ∈ states → s < a.stateCount) {target : Nat} :
    target ∈ a.emptyClosure states ↔ ∃ s ∈ states, Relation.ReflTransGen a.Silent s target := by
  have hstep : ∀ s t, s < a.stateCount →
      t ∈ a.emptySymbols.foldl (fun found i => found.union (a.targets s i)) NumberSet.empty →
      t < a.stateCount := fun s t _ ht => lt_of_silent ha ((mem_silentTargets_iff ha).1 ht)
  rw [emptyClosure, NumberSet.mem_closure_iff hstates hstep (Nat.le_refl _)]
  simp only [mem_silentTargets_iff ha]

/-- Where silent transitions lead from a state, by symbol and then in ascending order. -/
def silentSteps (a : Automaton) (source : Nat) : List Nat :=
  a.emptySymbols.flatMap fun i => (a.targets source i).toList

/-- **The search with a stack for the states that are reached without reading ends in their closure.** -/
theorem explores_iff_eq_emptyClosure (ha : a.Sound) {states found : NumberSet}
    (hstates : ∀ s ∈ states, s < a.stateCount) :
    NumberSet.Explores a.silentSteps states states.toList.reverse found ↔ found = a.emptyClosure states := by
  have hsteps : ∀ s t, t ∈ a.emptySymbols.foldl (fun found i => found.union (a.targets s i)) NumberSet.empty ↔
      t ∈ a.silentSteps s := by
    intro s t
    rw [NumberSet.mem_foldl_union, silentSteps, List.mem_flatMap]
    exact or_iff_right (NumberSet.not_mem_empty t)
  refine NumberSet.explores_iff_eq_closure hsteps hstates (fun s t _ ht => ?_) (Nat.le_refl _)
  exact lt_of_silent ha ((mem_silentTargets_iff ha).1 ((hsteps s t).2 ht))

/-! ### Walks -/

/-- `a.Walk s symbols t` says that a walk from `s` to `t` reads the symbols; a transition of an empty
symbol may be taken without reading it. -/
inductive Walk (a : Automaton) : Nat → List String → Nat → Prop where
  | stay (s : Nat) : Walk a s [] s
  | silent {s m t : Nat} {symbols : List String} (h : a.Silent s m) (hwalk : Walk a m symbols t) :
      Walk a s symbols t
  | read {s m t : Nat} {symbol : String} {symbols : List String}
      (h : (s, symbol, m) ∈ a.transitions) (hwalk : Walk a m symbols t) :
      Walk a s (symbol :: symbols) t

theorem Walk.of_silent {s m t : Nat} {symbols : List String}
    (h : Relation.ReflTransGen a.Silent s m) (hwalk : a.Walk m symbols t) : a.Walk s symbols t := by
  induction h using Relation.ReflTransGen.head_induction_on with
  | refl => exact hwalk
  | head hsilent _ ih => exact Walk.silent hsilent ih

theorem walk_nil_iff {s t : Nat} : a.Walk s [] t ↔ Relation.ReflTransGen a.Silent s t := by
  constructor
  · intro h
    generalize hnil : ([] : List String) = symbols at h
    induction h with
    | stay s => exact Relation.ReflTransGen.refl
    | silent h _ ih => exact Relation.ReflTransGen.head h (ih hnil)
    | read _ _ _ => cases hnil
  · intro h
    exact Walk.of_silent h (Walk.stay t)

theorem walk_cons_iff {s t : Nat} {symbol : String} {symbols : List String} :
    a.Walk s (symbol :: symbols) t ↔
      ∃ m n, Relation.ReflTransGen a.Silent s m ∧ (m, symbol, n) ∈ a.transitions ∧
        a.Walk n symbols t := by
  constructor
  · intro h
    generalize hcons : symbol :: symbols = all at h
    induction h with
    | stay s => cases hcons
    | silent h _ ih =>
        obtain ⟨m, n, hreach, hread, hwalk⟩ := ih hcons
        exact ⟨m, n, Relation.ReflTransGen.head h hreach, hread, hwalk⟩
    | @read s n t _ _ h hwalk _ =>
        cases hcons
        exact ⟨s, n, Relation.ReflTransGen.refl, h, hwalk⟩
  · rintro ⟨m, n, hreach, hread, hwalk⟩
    exact Walk.of_silent hreach (Walk.read hread hwalk)

theorem acceptsFrom_iff (ha : a.Sound) (symbols : List String) :
    ∀ states : NumberSet, (∀ s, s ∈ states → s < a.stateCount) →
      (a.acceptsFrom (a.emptyClosure states) symbols = true ↔
        ∃ s ∈ states, ∃ t ∈ a.finals, a.Walk s symbols t) := by
  induction symbols with
  | nil =>
      intro states hstates
      rw [acceptsFrom, Bool.not_eq_true', ← Bool.not_eq_true, NumberSet.disjoint_iff]
      simp only [mem_emptyClosure_iff ha hstates, walk_nil_iff]
      constructor
      · intro h
        push Not at h
        obtain ⟨t, ⟨s, hs, hreach⟩, ht⟩ := h
        exact ⟨s, hs, t, ht, hreach⟩
      · rintro ⟨s, hs, t, ht, hreach⟩ h
        exact h t ⟨s, hs, hreach⟩ ht
  | cons symbol symbols ih =>
      intro states hstates
      rw [acceptsFrom]
      cases hid : a.symbols.id? symbol with
      | none =>
          constructor
          · intro h
            cases h
          · rintro ⟨s, hs, t, ht, hwalk⟩
            obtain ⟨m, n, _, hread, _⟩ := walk_cons_iff.1 hwalk
            obtain ⟨i, hname, _⟩ := (mem_transitions_iff ha).1 hread
            rw [SymbolTable.id?_eq_some_iff.2 hname] at hid
            cases hid
      | some i =>
          have hname := SymbolTable.id?_eq_some_iff.1 hid
          have hmoved : ∀ n, n ∈ (a.emptyClosure states).unionMap (fun s => a.targets s i) →
              n < a.stateCount := by
            intro n hn
            obtain ⟨m, _, htarget⟩ := NumberSet.mem_unionMap.1 hn
            exact (ha.target_lt htarget).2.2
          show a.acceptsFrom (a.emptyClosure _) symbols = true ↔ _
          rw [ih _ hmoved]
          simp only [NumberSet.mem_unionMap, mem_emptyClosure_iff ha hstates, walk_cons_iff]
          constructor
          · rintro ⟨n, ⟨m, ⟨s, hs, hreach⟩, htarget⟩, t, ht, hwalk⟩
            exact ⟨s, hs, t, ht, m, n, hreach, (mem_transitions_iff ha).2 ⟨i, hname, htarget⟩, hwalk⟩
          · rintro ⟨s, hs, t, ht, m, n, hreach, hread, hwalk⟩
            obtain ⟨j, hname', htarget⟩ := (mem_transitions_iff ha).1 hread
            rw [SymbolTable.name?_injective hname' hname] at htarget
            exact ⟨n, ⟨m, ⟨s, hs, hreach⟩, htarget⟩, t, ht, hwalk⟩

/-- **Acceptance by walks.**  An automaton accepts what is read on a walk from the start to a final
state. -/
theorem accepts_iff_walk (ha : a.Sound) (symbols : List String) :
    a.accepts symbols = true ↔ ∃ t ∈ a.finals, a.Walk start symbols t := by
  have hstart : ∀ s, s ∈ NumberSet.singleton start → s < a.stateCount := by
    intro s hs
    rw [NumberSet.mem_singleton.1 hs]
    exact ha.start_lt
  rw [accepts, acceptsFrom_iff ha symbols _ hstart]
  simp [NumberSet.mem_singleton]

end RuleGrammar.Automaton
