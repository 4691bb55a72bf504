import Mathlib.Data.List.Nodup
import Mathlib.Data.List.Perm.Subperm
import Mathlib.Logic.Relation
import RuleGrammar.NumberSet

/-!
# Repeated improvement and closures

A value that is improved again and again, each time by at least one unit of a bounded measure, becomes
stable within as many rounds as the measure has units left.  The closure of a set under a step is one
such value: its rounds suffice, and what it holds is exactly what the step reaches.  A search that keeps
the numbers it has yet to look at on a stack, with no bound on how long it goes on, finds the same set.

* `stable_of_measure`: the rounds suffice, for any loop that stops at a stable value.
* `mem_unionMap`: the members of a union over a set.
* `size_lt_of_subset`, `size_le_of_lt`: sets grow strictly, and a bounded set is small.
* `mem_closure_iff`: the closure of a set holds what the step reaches from it.
* `Explores`: the search with a stack; `exists_explores`, `Explores.mem_iff`: it ends, with what the step
  reaches.
* `explores_iff_eq_closure`: the search from a set ends in the closure of the set and nowhere else.
-/

namespace RuleGrammar

/-- **Rounds suffice.**  A loop that improves a value until it is stable ends at a stable value, if each
improvement raises a bounded measure and there is a round for each unit that is left. -/
theorem stable_of_measure {α : Type} [DecidableEq α] {step : α → α} {loop : Nat → α → α}
    (hzero : ∀ s, loop 0 s = s)
    (hsucc : ∀ n s, loop (n + 1) s = if step s = s then s else loop n (step s))
    (Inv : α → Prop) (hinv : ∀ s, Inv s → Inv (step s)) (measure : α → Nat) {bound : Nat}
    (hbound : ∀ s, Inv s → measure s ≤ bound)
    (hgrow : ∀ s, Inv s → step s ≠ s → measure s < measure (step s)) :
    ∀ (n : Nat) (s : α), Inv s → bound ≤ measure s + n → step (loop n s) = loop n s := by
  intro n
  induction n with
  | zero =>
      intro s hs hn
      rw [hzero]
      by_contra hne
      have hlt := hgrow s hs hne
      have hle := hbound (step s) (hinv s hs)
      omega
  | succ n ih =>
      intro s hs hn
      rw [hsucc]
      by_cases heq : step s = s
      · rw [if_pos heq]
        exact heq
      · rw [if_neg heq]
        have hlt := hgrow s hs heq
        exact ih (step s) (hinv s hs) (by omega)

/-- What one improvement keeps, the loop keeps. -/
theorem loop_invariant {α : Type} [DecidableEq α] {step : α → α} {loop : Nat → α → α}
    (hzero : ∀ s, loop 0 s = s)
    (hsucc : ∀ n s, loop (n + 1) s = if step s = s then s else loop n (step s))
    (Inv : α → Prop) (hinv : ∀ s, Inv s → Inv (step s)) :
    ∀ (n : Nat) (s : α), Inv s → Inv (loop n s) := by
  intro n
  induction n with
  | zero =>
      intro s hs
      rw [hzero]
      exact hs
  | succ n ih =>
      intro s hs
      rw [hsucc]
      split
      · exact hs
      · exact ih (step s) (hinv s hs)

namespace NumberSet

/-! ### Unions over a set -/

theorem mem_foldl_union {f : Nat → NumberSet} {n : Nat} (ms : List Nat) (s : NumberSet) :
    n ∈ ms.foldl (fun found m => found.union (f m)) s ↔ n ∈ s ∨ ∃ m ∈ ms, n ∈ f m := by
  induction ms generalizing s with
  | nil => simp
  | cons m ms ih =>
      rw [List.foldl_cons, ih, mem_union]
      simp only [List.mem_cons, exists_eq_or_imp, or_assoc]

@[simp] theorem mem_unionMap {s : NumberSet} {f : Nat → NumberSet} {n : Nat} :
    n ∈ s.unionMap f ↔ ∃ m ∈ s, n ∈ f m := by
  rw [unionMap, mem_foldl_union]
  simp only [not_mem_empty, false_or]
  rfl

theorem unionMap_congr {s : NumberSet} {f f' : Nat → NumberSet} (h : ∀ m ∈ s, f m = f' m) :
    s.unionMap f = s.unionMap f' := by
  refine ext fun n => ?_
  rw [mem_unionMap, mem_unionMap]
  exact exists_congr fun m => and_congr_right fun hm => by rw [h m hm]

/-! ### Sizes -/

theorem nodup_toList (s : NumberSet) : s.toList.Nodup :=
  s.ascending.imp fun h => Nat.ne_of_lt h

/-- A set with a further member is larger. -/
theorem size_lt_of_subset {s t : NumberSet} (h : ∀ n, n ∈ s → n ∈ t) (hne : t ≠ s) :
    s.size < t.size := by
  have hsub : s.toList.Subperm t.toList := (nodup_toList s).subperm h
  refine Nat.lt_of_le_of_ne hsub.length_le ?_
  intro hlen
  have hperm := hsub.perm_of_length_le (Nat.le_of_eq hlen.symm)
  exact hne (ext fun n => hperm.mem_iff.symm)

theorem size_le_of_subset {s t : NumberSet} (h : ∀ n, n ∈ s → n ∈ t) : s.size ≤ t.size :=
  ((nodup_toList s).subperm h).length_le

/-- A set of numbers below a bound has no more members than the bound says. -/
theorem size_le_of_lt {s : NumberSet} {bound : Nat} (h : ∀ n, n ∈ s → n < bound) :
    s.size ≤ bound := by
  have hsub : s.toList.Subperm (List.range bound) :=
    (nodup_toList s).subperm fun n hn => List.mem_range.2 (h n hn)
  have hlen := hsub.length_le
  rw [List.length_range] at hlen
  exact hlen

/-! ### Closures -/

/-- The set with everything added that one step reaches. -/
def extended (step : Nat → NumberSet) (s : NumberSet) : NumberSet := s.union (s.unionMap step)

theorem mem_extended {step : Nat → NumberSet} {s : NumberSet} {n : Nat} :
    n ∈ s.extended step ↔ n ∈ s ∨ ∃ m ∈ s, n ∈ step m := by
  rw [extended, mem_union, mem_unionMap]

theorem closure_succ (step : Nat → NumberSet) (rounds : Nat) (s : NumberSet) :
    closure step (rounds + 1) s
      = if s.extended step = s then s else closure step rounds (s.extended step) := rfl

/-- Every member of a closure is reached by steps from the set. -/
theorem exists_reaches_of_mem_closure {step : Nat → NumberSet} {rounds n : Nat} {s : NumberSet}
    (h : n ∈ closure step rounds s) :
    ∃ m ∈ s, Relation.ReflTransGen (fun a b => b ∈ step a) m n := by
  refine loop_invariant (fun _ => rfl) (closure_succ step)
    (fun t => ∀ k, k ∈ t → ∃ m ∈ s, Relation.ReflTransGen (fun a b => b ∈ step a) m k)
    ?_ rounds s (fun k hk => ⟨k, hk, Relation.ReflTransGen.refl⟩) n h
  intro t ht k hk
  rcases mem_extended.1 hk with hk | ⟨j, hj, hk⟩
  · exact ht k hk
  · obtain ⟨m, hm, hreach⟩ := ht j hj
    exact ⟨m, hm, hreach.tail hk⟩

theorem subset_closure {step : Nat → NumberSet} {rounds n : Nat} {s : NumberSet} (h : n ∈ s) :
    n ∈ closure step rounds s :=
  loop_invariant (fun _ => rfl) (closure_succ step) (fun t => n ∈ t)
    (fun _ ht => mem_extended.2 (Or.inl ht)) rounds s h

/-- With a round for each number below the bound, the closure is closed under the step. -/
theorem closure_closed {step : Nat → NumberSet} {bound rounds : Nat} {s : NumberSet}
    (hs : ∀ n, n ∈ s → n < bound) (hstep : ∀ m n, m < bound → n ∈ step m → n < bound)
    (hrounds : bound ≤ rounds) {m n : Nat} (hm : m ∈ closure step rounds s) (hn : n ∈ step m) :
    n ∈ closure step rounds s := by
  have hinv : ∀ t : NumberSet, (∀ k, k ∈ t → k < bound) → ∀ k, k ∈ t.extended step → k < bound := by
    intro t ht k hk
    rcases mem_extended.1 hk with hk | ⟨j, hj, hk⟩
    · exact ht k hk
    · exact hstep j k (ht j hj) hk
  have hstable : (closure step rounds s).extended step = closure step rounds s :=
    stable_of_measure (fun _ => rfl) (closure_succ step) (fun t => ∀ k, k ∈ t → k < bound) hinv size
      (fun t ht => size_le_of_lt ht)
      (fun t _ hne => size_lt_of_subset (fun k hk => mem_extended.2 (Or.inl hk)) hne)
      rounds s hs (by omega)
  rw [← hstable]
  exact mem_extended.2 (Or.inr ⟨m, hm, hn⟩)

/-- **The closure of a set holds exactly what the step reaches from it.** -/
theorem mem_closure_iff {step : Nat → NumberSet} {bound rounds : Nat} {s : NumberSet}
    (hs : ∀ n, n ∈ s → n < bound) (hstep : ∀ m n, m < bound → n ∈ step m → n < bound)
    (hrounds : bound ≤ rounds) {n : Nat} :
    n ∈ closure step rounds s ↔ ∃ m ∈ s, Relation.ReflTransGen (fun a b => b ∈ step a) m n := by
  constructor
  · exact exists_reaches_of_mem_closure
  · rintro ⟨m, hm, hreach⟩
    induction hreach with
    | refl => exact subset_closure hm
    | tail _ hlast ih => exact closure_closed hs hstep hrounds ih hlast

/-! ### Searching with a stack -/

/-- Adds a number to those that were found and puts it on the stack, unless it was found before. -/
def discover (state : NumberSet × List Nat) (n : Nat) : NumberSet × List Nat :=
  if n ∈ state.1 then state else (state.1.insert n, n :: state.2)

/-- The search that has found `s` and has yet to look at the numbers on `stack`, the next one first, ends
with `found`: it takes a number off the stack and discovers what one step reaches from it, until the stack
is empty. -/
inductive Explores (step : Nat → List Nat) : NumberSet → List Nat → NumberSet → Prop where
  | done (s : NumberSet) : Explores step s [] s
  | look {s : NumberSet} {m : Nat} {stack : List Nat} {found : NumberSet}
      (hrest : Explores step ((step m).foldl discover (s, stack)).1
        ((step m).foldl discover (s, stack)).2 found) :
      Explores step s (m :: stack) found

section Search

variable {step step' : Nat → List Nat} {s found found' : NumberSet} {stack : List Nat}

theorem mem_foldl_discover {n : Nat} (ns : List Nat) : ∀ state : NumberSet × List Nat,
    n ∈ (ns.foldl discover state).1 ↔ n ∈ state.1 ∨ n ∈ ns := by
  induction ns with
  | nil => simp
  | cons m ns ih =>
      intro state
      rw [List.foldl_cons, ih, discover]
      by_cases hm : m ∈ state.1
      · rw [if_pos hm]
        grind
      · rw [if_neg hm, mem_insert]
        grind

theorem mem_stack_foldl_discover {n : Nat} (ns : List Nat) : ∀ state : NumberSet × List Nat,
    n ∈ (ns.foldl discover state).2 ↔ n ∈ state.2 ∨ (n ∈ ns ∧ ¬ n ∈ state.1) := by
  induction ns with
  | nil => simp
  | cons m ns ih =>
      intro state
      rw [List.foldl_cons, ih, discover]
      by_cases hm : m ∈ state.1
      · rw [if_pos hm]
        grind
      · rw [if_neg hm, mem_insert]
        grind

theorem mem_of_mem_stack (hstack : ∀ m ∈ stack, m ∈ s) (ns : List Nat) {n : Nat}
    (hn : n ∈ (ns.foldl discover (s, stack)).2) : n ∈ (ns.foldl discover (s, stack)).1 := by
  rw [mem_foldl_discover]
  rcases (mem_stack_foldl_discover ns _).1 hn with hn | ⟨hn, _⟩
  · exact Or.inl (hstack n hn)
  · exact Or.inr hn

theorem length_discover_le (state : NumberSet × List Nat) (n : Nat) :
    (discover state n).2.length + state.1.size ≤ state.2.length + (discover state n).1.size := by
  unfold discover
  by_cases hn : n ∈ state.1
  · simp only [if_pos hn, Nat.le_refl]
  · have hlt : state.1.size < (state.1.insert n).size :=
      size_lt_of_subset (fun m hm => mem_insert.2 (Or.inr hm))
        (fun heq => hn (heq ▸ mem_insert.2 (Or.inl rfl)))
    rw [if_neg hn]
    show (n :: state.2).length + state.1.size ≤ state.2.length + (state.1.insert n).size
    rw [List.length_cons]
    omega

/-- For each number that goes on the stack, one is added to those that were found. -/
theorem length_foldl_discover_le (ns : List Nat) : ∀ state : NumberSet × List Nat,
    (ns.foldl discover state).2.length + state.1.size
      ≤ state.2.length + (ns.foldl discover state).1.size := by
  induction ns with
  | nil =>
      intro state
      exact Nat.le_refl _
  | cons m ns ih =>
      intro state
      rw [List.foldl_cons]
      have hfirst := length_discover_le state m
      have hrest := ih (discover state m)
      omega

/-- **A search among boundedly many numbers ends.**  Each look takes a number off the stack, and for each
one that goes on it there is one less to be found. -/
theorem exists_explores {bound : Nat} (hstep : ∀ m n, m < bound → n ∈ step m → n < bound) (looks : Nat) :
    ∀ (s : NumberSet) (stack : List Nat), (∀ n ∈ s, n < bound) → (∀ m ∈ stack, m ∈ s) →
      stack.length + (bound - s.size) ≤ looks → ∃ found, Explores step s stack found := by
  induction looks with
  | zero =>
      intro s stack _ _ hlooks
      obtain rfl : stack = [] := List.length_eq_zero_iff.1 (by omega)
      exact ⟨s, .done s⟩
  | succ looks ih =>
      intro s stack hs hstack hlooks
      cases stack with
      | nil => exact ⟨s, .done s⟩
      | cons m stack =>
          have hm : m < bound := hs m (hstack m (List.mem_cons_self ..))
          have hs' : ∀ n ∈ ((step m).foldl discover (s, stack)).1, n < bound := by
            intro n hn
            rcases (mem_foldl_discover _ _).1 hn with hn | hn
            · exact hs n hn
            · exact hstep m n hm hn
          have hlen := length_foldl_discover_le (step m) (s, stack)
          have hsize := size_le_of_lt hs'
          rw [List.length_cons] at hlooks
          dsimp only at hlen
          obtain ⟨found, hfound⟩ := ih _ _ hs'
            (fun n => mem_of_mem_stack (fun k hk => hstack k (List.mem_cons_of_mem m hk)) (step m))
            (by omega)
          exact ⟨found, .look hfound⟩

namespace Explores

theorem subset (h : Explores step s stack found) {n : Nat} (hn : n ∈ s) : n ∈ found := by
  induction h with
  | done => exact hn
  | look _ ih => exact ih ((mem_foldl_discover _ _).2 (Or.inl hn))

/-- What holds of the numbers at the beginning and carries over a step holds of all that are found. -/
theorem invariant {P : Nat → Prop} (h : Explores step s stack found) (hstack : ∀ m ∈ stack, m ∈ s)
    (hs : ∀ n ∈ s, P n) (hstep : ∀ m ∈ found, P m → ∀ n ∈ step m, P n) : ∀ n ∈ found, P n := by
  induction h with
  | done => exact hs
  | @look s m stack found hrest ih =>
      have hm : m ∈ s := hstack m (List.mem_cons_self ..)
      refine ih (fun n => mem_of_mem_stack (fun k hk => hstack k (List.mem_cons_of_mem m hk)) (step m))
        (fun n hn => ?_) hstep
      rcases (mem_foldl_discover _ _).1 hn with hn | hn
      · exact hs n hn
      · exact hstep m (hrest.subset ((mem_foldl_discover _ _).2 (Or.inl hm))) (hs m hm) n hn

/-- If a step from the numbers that are off the stack leads to nothing new, then at the end a step from
any number leads to nothing new. -/
theorem closed (h : Explores step s stack found)
    (hdone : ∀ m ∈ s, ¬ m ∈ stack → ∀ n ∈ step m, n ∈ s) :
    ∀ m ∈ found, ∀ n ∈ step m, n ∈ found := by
  induction h with
  | done =>
      intro m hm
      exact hdone m hm List.not_mem_nil
  | @look s m stack found _ ih =>
      refine ih fun k hk hoff n hn => ?_
      rw [mem_stack_foldl_discover, not_or] at hoff
      rw [mem_foldl_discover]
      -- what is discovered goes on the stack, so a number off it was found before
      have hks : k ∈ s := by
        by_contra hnew
        exact hoff.2 ⟨((mem_foldl_discover _ _).1 hk).resolve_left hnew, hnew⟩
      by_cases heq : k = m
      · subst heq
        exact Or.inr hn
      · have hoff' : ¬ k ∈ m :: stack := by
          rw [List.mem_cons, not_or]
          exact ⟨heq, hoff.1⟩
        exact Or.inl (hdone k hks hoff' n hn)

/-- Searches that begin alike end alike, if their steps agree on what both find. -/
theorem eq_of_agree (h : Explores step s stack found) (h' : Explores step' s stack found')
    (hstack : ∀ m ∈ stack, m ∈ s) (hagree : ∀ m, m ∈ found → m ∈ found' → step m = step' m) :
    found = found' := by
  induction h with
  | done =>
      cases h'
      rfl
  | @look s m stack found hrest ih =>
      cases h' with
      | look hrest' =>
          have hm : m ∈ s := hstack m (List.mem_cons_self ..)
          have hsame : step m = step' m :=
            hagree m (hrest.subset ((mem_foldl_discover _ _).2 (Or.inl hm)))
              (hrest'.subset ((mem_foldl_discover _ _).2 (Or.inl hm)))
          rw [← hsame] at hrest'
          exact ih hrest'
            (fun n => mem_of_mem_stack (fun k hk => hstack k (List.mem_cons_of_mem m hk)) (step m)) hagree

/-- **A search finds exactly what the step reaches.** -/
theorem mem_iff (h : Explores step s s.toList.reverse found) {n : Nat} :
    n ∈ found ↔ ∃ m ∈ s, Relation.ReflTransGen (fun a b => b ∈ step a) m n := by
  constructor
  · have hreached : ∀ k ∈ found, ∃ m ∈ s, Relation.ReflTransGen (fun a b => b ∈ step a) m k := by
      refine h.invariant (fun m hm => List.mem_reverse.1 hm)
        (fun m hm => ⟨m, hm, Relation.ReflTransGen.refl⟩) ?_
      rintro k _ ⟨m, hm, hreach⟩ last hlast
      exact ⟨m, hm, hreach.tail hlast⟩
    exact hreached n
  · rintro ⟨m, hm, hreach⟩
    have hclosed := h.closed fun k hk hoff => absurd (List.mem_reverse.2 hk) hoff
    induction hreach with
    | refl => exact h.subset hm
    | tail _ hlast ih => exact hclosed _ ih _ hlast

end Explores

/-- **The stack search from a set ends, and what it finds is the closure of the set.** -/
theorem explores_iff_eq_closure {steps : Nat → NumberSet} (hsteps : ∀ m n, n ∈ steps m ↔ n ∈ step m)
    {bound rounds : Nat} (hs : ∀ n ∈ s, n < bound) (hstep : ∀ m n, m < bound → n ∈ step m → n < bound)
    (hrounds : bound ≤ rounds) :
    Explores step s s.toList.reverse found ↔ found = closure steps rounds s := by
  have hclosure : ∀ t, Explores step s s.toList.reverse t → t = closure steps rounds s := by
    intro t ht
    refine ext fun n => ?_
    rw [ht.mem_iff, mem_closure_iff hs (fun m n hm hn => hstep m n hm ((hsteps m n).1 hn)) hrounds]
    simp only [hsteps]
  constructor
  · exact hclosure found
  · rintro rfl
    obtain ⟨t, ht⟩ := exists_explores hstep _ s s.toList.reverse hs (fun m hm => List.mem_reverse.1 hm)
      (Nat.le_refl _)
    exact hclosure t ht ▸ ht

end Search

end NumberSet

end RuleGrammar
