import Mathlib.Data.Finset.Card
import Mathlib.Data.Finset.Range
import Mathlib.Logic.Function.Iterate
import RuleGrammar.FixedPoint

/-!
# Passes that converge

The analyses of a grammar mark nonterminals, and what a pass does with one mark depends on that mark
alone.  So a mark that a pass leaves alone is left alone from then on, and any other mark reaches a
further nonterminal with each pass: there are never more passes that change something than there are
nonterminals, however many marks there are.

* `View`: marks of numbers below a count, read off a value.
* `View.Local`: a pass that treats each mark by itself, only adds marks and reports what it does.
* `sweep`: a pass made of one move for each item of a list; `sweep_local`, `sweep_unchanged`,
  `sweep_invariant`.
* `Raises`: a pass that raises a measure whenever it changes something; `sweep_raises`.
* `run_converges`: local passes converge.
* `stable_of_converged`, `run_invariant`: what is known of the value that was reached.
* `Outcome.Settles`: passes that came to an end within a bound; `View.Local.settles`.
* `View.Local.run_value_eq_iterate`: local passes as iterates, whether they converged or were cut short.
-/

namespace RuleGrammar.FixedPoint

variable {σ ι : Type}

/-- Marks of numbers below a count, read off the valid values of a type. -/
structure View (σ : Type) where
  Valid : σ → Prop
  Holds : σ → Nat → Nat → Prop
  count : Nat
  below : ∀ {s : σ} {x n : Nat}, Valid s → Holds s x n → n < count

namespace View

/-- A pass that treats each mark by itself, only adds marks, and says whether it did. -/
structure Local (v : View σ) (pass : σ → σ × Bool) : Prop where
  valid : ∀ {s : σ}, v.Valid s → v.Valid (pass s).1
  grows : ∀ {s : σ} {x n : Nat}, v.Valid s → v.Holds s x n → v.Holds (pass s).1 x n
  depends : ∀ {s t : σ} {x : Nat}, v.Valid s → v.Valid t → (∀ n, v.Holds s x n ↔ v.Holds t x n) →
    ∀ n, v.Holds (pass s).1 x n ↔ v.Holds (pass t).1 x n
  unchanged : ∀ {s : σ}, v.Valid s → (pass s).2 = false → (pass s).1 = s
  changed : ∀ {s : σ}, v.Valid s → (pass s).2 = true →
    ∃ x n, ¬ v.Holds s x n ∧ v.Holds (pass s).1 x n

/-- A pass leaves the numbers with a mark as they are. -/
def Settled (v : View σ) (pass : σ → σ × Bool) (s : σ) (x : Nat) : Prop :=
  ∀ n, v.Holds (pass s).1 x n ↔ v.Holds s x n

open Classical in
noncomputable def marked (v : View σ) (s : σ) (x : Nat) : Finset Nat :=
  (Finset.range v.count).filter (v.Holds s x)

theorem mem_marked {v : View σ} {s : σ} (hs : v.Valid s) {x n : Nat} :
    n ∈ v.marked s x ↔ v.Holds s x n := by
  classical
  unfold marked
  rw [Finset.mem_filter, Finset.mem_range]
  exact ⟨fun h => h.2, fun h => ⟨v.below hs h, h⟩⟩

theorem card_marked_le (v : View σ) (s : σ) (x : Nat) : (v.marked s x).card ≤ v.count := by
  classical
  calc (v.marked s x).card ≤ (Finset.range v.count).card := Finset.card_filter_le _ _
    _ = v.count := Finset.card_range _

namespace Local

variable {v : View σ} {pass : σ → σ × Bool}

theorem marked_subset (h : v.Local pass) {s : σ} (hs : v.Valid s) (x : Nat) :
    v.marked s x ⊆ v.marked (pass s).1 x := by
  intro n hn
  rw [mem_marked (h.valid hs)]
  exact h.grows hs ((mem_marked hs).1 hn)

/-- A mark that is not settled reaches a further number. -/
theorem card_lt_of_not_settled (h : v.Local pass) {s : σ} (hs : v.Valid s) {x : Nat}
    (hx : ¬ v.Settled pass s x) : (v.marked s x).card < (v.marked (pass s).1 x).card := by
  refine Finset.card_lt_card ⟨h.marked_subset hs x, ?_⟩
  intro hback
  refine hx fun n => ⟨fun hn => ?_, h.grows hs⟩
  exact (mem_marked hs).1 (hback ((mem_marked (h.valid hs)).2 hn))

/-- A settled mark stays settled. -/
theorem settled_pass (h : v.Local pass) {s : σ} (hs : v.Valid s) {x : Nat}
    (hx : v.Settled pass s x) : v.Settled pass (pass s).1 x :=
  fun n => h.depends (h.valid hs) hs hx n

/-- Where all marks are settled, a pass reports no change. -/
theorem reports_of_settled (h : v.Local pass) {s : σ} (hs : v.Valid s)
    (hx : ∀ x, v.Settled pass s x) : (pass s).2 = false := by
  by_contra hne
  obtain ⟨x, n, hnot, hyes⟩ := h.changed hs (by simpa using hne)
  exact hnot ((hx x n).1 hyes)

/-- Once as many numbers have a mark as there are passes behind it, unless the mark is settled, the
passes that are left suffice. -/
theorem run_converges_from (h : v.Local pass) (cap : Nat) : ∀ (k : Nat) (s : σ), v.Valid s →
    (∀ x, v.Settled pass s x ∨ k ≤ (v.marked s x).card) → v.count ≤ cap + k →
    (run pass (cap + 1) s).converged = true := by
  induction cap with
  | zero =>
      intro k s hs hmarks hk
      have hall : ∀ x, v.Settled pass s x := by
        intro x
        by_contra hx
        -- the mark has reached all numbers, so it can reach no further one
        have hcard := (hmarks x).resolve_left hx
        have hlt := h.card_lt_of_not_settled hs hx
        have hle := v.card_marked_le (pass s).1 x
        omega
      rw [run, show pass s = ((pass s).1, false) from Prod.ext rfl (h.reports_of_settled hs hall)]
  | succ cap ih =>
      intro k s hs hmarks hk
      rw [run]
      split
      · rfl
      · next next heq =>
          have hnext : next = (pass s).1 := by rw [heq]
          subst hnext
          refine ih (k + 1) (pass s).1 (h.valid hs) (fun x => ?_) (by omega)
          by_cases hx : v.Settled pass s x
          · exact Or.inl (h.settled_pass hs hx)
          · right
            have hcard := (hmarks x).resolve_left hx
            have hlt := h.card_lt_of_not_settled hs hx
            omega

/-- **Local passes converge.**  With more passes than numbers that can be marked, the last pass
changes nothing, whatever the number of marks. -/
theorem run_converges (h : v.Local pass) {cap : Nat} {s : σ} (hs : v.Valid s)
    (hcap : v.count < cap) : (run pass cap s).converged = true := by
  obtain ⟨fewer, rfl⟩ : ∃ fewer, cap = fewer + 1 := ⟨cap - 1, by omega⟩
  exact h.run_converges_from fewer 0 s hs (fun x => Or.inr (Nat.zero_le _)) (by omega)

end Local

end View

/-! ### The value that was reached -/

/-- What a pass keeps holds of the value that repeated passes reach. -/
theorem run_invariant {pass : σ → σ × Bool} (Inv : σ → Prop)
    (hpass : ∀ s, Inv s → Inv (pass s).1) (cap : Nat) :
    ∀ s, Inv s → Inv (run pass cap s).value := by
  induction cap with
  | zero =>
      intro s hs
      exact hs
  | succ cap ih =>
      intro s hs
      have hnext := hpass s hs
      rw [run]
      split
      · next next heq =>
          rw [heq] at hnext
          exact hnext
      · next next heq =>
          rw [heq] at hnext
          exact ih next hnext

/-- Passes that converged ended with one that reported no change. -/
theorem exists_last_of_converged {pass : σ → σ × Bool} (Inv : σ → Prop)
    (hpass : ∀ s, Inv s → Inv (pass s).1) (cap : Nat) : ∀ s, Inv s →
    (run pass cap s).converged = true → ∃ last, Inv last ∧ pass last = ((run pass cap s).value, false) := by
  induction cap with
  | zero =>
      intro s _ hconv
      cases hconv
  | succ cap ih =>
      intro s hs hconv
      have hnext := hpass s hs
      rw [run] at hconv ⊢
      split at hconv
      · next next heq => exact ⟨s, hs, heq⟩
      · next next heq =>
          rw [heq] at hnext
          exact ih next hnext hconv

/-- **The value that local passes converge to is left alone by one more pass.** -/
theorem View.Local.stable_of_converged {v : View σ} {pass : σ → σ × Bool} (h : v.Local pass)
    {cap : Nat} {s : σ} (hs : v.Valid s) (hconv : (run pass cap s).converged = true) :
    v.Valid (run pass cap s).value ∧ pass (run pass cap s).value = ((run pass cap s).value, false) := by
  obtain ⟨last, hlast, heq⟩ := exists_last_of_converged v.Valid (fun _ => h.valid) cap s hs hconv
  have hsame : (pass last).1 = last := h.unchanged hlast (by rw [heq])
  rw [heq] at hsame
  rw [show (run pass cap s).value = last from hsame] at heq ⊢
  exact ⟨hlast, heq⟩

/-! ### How many passes were made -/

theorem run_passes_le (pass : σ → σ × Bool) (cap : Nat) : ∀ s, (run pass cap s).passes ≤ cap := by
  induction cap with
  | zero =>
      intro s
      exact Nat.le_refl 0
  | succ cap ih =>
      intro s
      rw [run]
      split
      · show 1 ≤ cap + 1
        omega
      · next next heq =>
          show (run pass cap next).passes + 1 ≤ cap + 1
          have hle := ih next
          omega

/-- Passes that converged come to the same under a higher cap. -/
theorem run_eq_of_converged (pass : σ → σ × Bool) (cap : Nat) : ∀ (s : σ) {larger : Nat},
    (run pass cap s).converged = true → cap ≤ larger → run pass larger s = run pass cap s := by
  induction cap with
  | zero =>
      intro s larger hconv _
      cases hconv
  | succ cap ih =>
      intro s larger hconv hle
      obtain ⟨more, rfl⟩ : ∃ more, larger = more + 1 := ⟨larger - 1, by omega⟩
      rw [run] at hconv
      rw [run, run]
      split at hconv
      · rfl
      · next next heq =>
          rw [ih next hconv (Nat.le_of_succ_le_succ hle)]

/-- Repeated passes came to an end within a number of passes: the last one reported no change, and one
more would leave the value alone. -/
structure Outcome.Settles (o : Outcome σ) (pass : σ → σ × Bool) (bound : Nat) : Prop where
  converged : o.converged = true
  passes : o.passes ≤ bound
  stable : pass o.value = (o.value, false)

/-- **Local passes settle within one more pass than there are numbers to mark**, whatever the cap above
that. -/
theorem View.Local.settles {v : View σ} {pass : σ → σ × Bool} (h : v.Local pass) {cap : Nat} {s : σ}
    (hs : v.Valid s) (hcap : v.count < cap) : (run pass cap s).Settles pass (v.count + 1) := by
  have hconv : (run pass (v.count + 1) s).converged = true := h.run_converges hs (Nat.lt_succ_self _)
  have hrun : run pass cap s = run pass (v.count + 1) s := run_eq_of_converged pass _ s hconv hcap
  rw [hrun]
  exact ⟨hconv, run_passes_le pass _ s, (h.stable_of_converged hs hconv).2⟩

/-! ### Passes as iterates -/

namespace View.Local

variable {v : View σ} {pass : σ → σ × Bool}

/-- Repeated passes take no mark away. -/
theorem grows_iterate (h : v.Local pass) {x n : Nat} (k : Nat) : ∀ {s : σ}, v.Valid s →
    v.Holds s x n → v.Holds ((fun s => (pass s).1)^[k] s) x n := by
  induction k with
  | zero =>
      intro s _ hold
      exact hold
  | succ k ih =>
      intro s hs hold
      rw [Function.iterate_succ_apply]
      exact ih (h.valid hs) (h.grows hs hold)

/-- **What local passes reach is what as many passes as the cap allows reach**: those that were not made
would have changed nothing. -/
theorem run_value_eq_iterate (h : v.Local pass) (cap : Nat) : ∀ {s : σ}, v.Valid s →
    (run pass cap s).value = (fun s => (pass s).1)^[cap] s := by
  induction cap with
  | zero =>
      intro s _
      rfl
  | succ cap ih =>
      intro s hs
      rw [run, Function.iterate_succ_apply]
      split
      · next next heq =>
          have hsame : (pass s).1 = s := h.unchanged hs (by rw [heq])
          rw [hsame, Function.iterate_fixed hsame, ← hsame, heq]
      · next next heq =>
          have hnext : (pass s).1 = next := by rw [heq]
          rw [hnext]
          exact ih (hnext ▸ h.valid hs)

end View.Local

/-! ### Passes made of moves -/

/-- One move for each item of a list, in order; a change is reported if any of them reports one. -/
def sweep (move : ι → σ → σ × Bool) (items : List ι) (s : σ) : σ × Bool :=
  items.foldl (fun state item =>
    ((move item state.1).1, state.2 || (move item state.1).2)) (s, false)

theorem foldl_moves (move : ι → σ → σ × Bool) (items : List ι) : ∀ (s : σ) (changed : Bool),
    items.foldl (fun state item => ((move item state.1).1, state.2 || (move item state.1).2))
        (s, changed)
      = ((sweep move items s).1, changed || (sweep move items s).2) := by
  induction items with
  | nil =>
      intro s changed
      simp [sweep]
  | cons item items ih =>
      intro s changed
      simp only [sweep, List.foldl_cons]
      rw [ih, ih]
      simp [Bool.or_assoc]

theorem sweep_cons (move : ι → σ → σ × Bool) (item : ι) (items : List ι) (s : σ) :
    sweep move (item :: items) s
      = ((sweep move items (move item s).1).1,
          (move item s).2 || (sweep move items (move item s).1).2) := by
  rw [sweep, List.foldl_cons, foldl_moves, Bool.false_or]

/-- What every move keeps, a pass keeps. -/
theorem sweep_invariant {move : ι → σ → σ × Bool} {items : List ι} (Inv : σ → Prop)
    (hmove : ∀ item ∈ items, ∀ s, Inv s → Inv (move item s).1) :
    ∀ s, Inv s → Inv (sweep move items s).1 := by
  induction items with
  | nil =>
      intro s hs
      exact hs
  | cons item items ih =>
      intro s hs
      rw [sweep_cons]
      exact ih (fun other hmem => hmove other (List.mem_cons_of_mem item hmem)) _
        (hmove item (List.mem_cons_self ..) s hs)

/-- Where a pass reports no change, each of its moves reports none, if a move that reports none leaves the
value alone. -/
theorem moves_of_sweep_unchanged {move : ι → σ → σ × Bool} {items : List ι} {s : σ}
    (hmove : ∀ item ∈ items, (move item s).2 = false → (move item s).1 = s)
    (hno : (sweep move items s).2 = false) : ∀ item ∈ items, move item s = (s, false) := by
  induction items with
  | nil =>
      intro item hmem
      cases hmem
  | cons first items ih =>
      rw [sweep_cons] at hno
      obtain ⟨hno, hrest⟩ := Bool.or_eq_false_iff.1 hno
      have hsame := hmove first (List.mem_cons_self ..) hno
      rw [hsame] at hrest
      intro item hmem
      rcases List.mem_cons.1 hmem with rfl | hmem
      · exact Prod.ext hsame hno
      · exact ih (fun other hmem => hmove other (List.mem_cons_of_mem first hmem)) hrest item hmem

namespace View

variable {v : View σ}

theorem idle_local (v : View σ) : v.Local (fun s => (s, false)) where
  valid := id
  grows _ h := h
  depends _ _ h := h
  unchanged _ _ := rfl
  changed _ h := by cases h

/-- One local pass after another is a local pass. -/
theorem Local.andThen {first second : σ → σ × Bool} (h : v.Local first) (h' : v.Local second) :
    v.Local fun s => ((second (first s).1).1, (first s).2 || (second (first s).1).2) where
  valid hs := h'.valid (h.valid hs)
  grows hs hold := h'.grows (h.valid hs) (h.grows hs hold)
  depends hs ht heq := h'.depends (h.valid hs) (h.valid ht) (h.depends hs ht heq)
  unchanged {s} hs hno := by
    obtain ⟨hno, hno'⟩ := Bool.or_eq_false_iff.1 hno
    have hsame := h'.unchanged (h.valid hs) hno'
    rw [hsame]
    exact h.unchanged hs hno
  changed {s} hs hyes := by
    rcases Bool.or_eq_true_iff.1 hyes with hyes | hyes
    · obtain ⟨x, n, hnot, hnew⟩ := h.changed hs hyes
      exact ⟨x, n, hnot, h'.grows (h.valid hs) hnew⟩
    · obtain ⟨x, n, hnot, hnew⟩ := h'.changed (h.valid hs) hyes
      exact ⟨x, n, fun hold => hnot (h.grows hs hold), hnew⟩

/-- A pass made of local moves is local. -/
theorem sweep_local {move : ι → σ → σ × Bool} {items : List ι}
    (h : ∀ item ∈ items, v.Local (move item)) : v.Local (sweep move items) := by
  induction items with
  | nil => exact v.idle_local
  | cons item items ih =>
      have hfirst := h item (List.mem_cons_self ..)
      have hrest := ih fun other hmem => h other (List.mem_cons_of_mem item hmem)
      have heq : sweep move (item :: items) = _ := funext (sweep_cons move item items)
      rw [heq]
      exact hfirst.andThen hrest

/-- Where a pass reports no change, each of its moves reports none. -/
theorem sweep_unchanged {move : ι → σ → σ × Bool} {items : List ι}
    (h : ∀ item ∈ items, v.Local (move item)) {s : σ} (hs : v.Valid s)
    (hno : (sweep move items s).2 = false) : ∀ item ∈ items, move item s = (s, false) :=
  moves_of_sweep_unchanged (fun item hmem => (h item hmem).unchanged hs) hno

end View

/-! ### Passes that raise a measure -/

/-- A pass that keeps an invariant and raises a measure whenever it reports a change; otherwise it leaves
the value alone. -/
structure Raises (Inv : σ → Prop) (measure : σ → Nat) (pass : σ → σ × Bool) : Prop where
  keeps : ∀ {s : σ}, Inv s → Inv (pass s).1
  unchanged : ∀ {s : σ}, Inv s → (pass s).2 = false → (pass s).1 = s
  raised : ∀ {s : σ}, Inv s → (pass s).2 = true → measure s < measure (pass s).1

/-- A pass made of moves that raise a measure raises it. -/
theorem sweep_raises {Inv : σ → Prop} {measure : σ → Nat} {move : ι → σ → σ × Bool} {items : List ι}
    (h : ∀ item ∈ items, Raises Inv measure (move item)) : Raises Inv measure (sweep move items) := by
  induction items with
  | nil => exact ⟨id, fun _ _ => rfl, fun _ hyes => nomatch hyes⟩
  | cons item items ih =>
      have hfirst := h item (List.mem_cons_self ..)
      have hrest := ih fun other hmem => h other (List.mem_cons_of_mem item hmem)
      refine ⟨fun {s} hs => ?_, fun {s} hs hno => ?_, fun {s} hs hyes => ?_⟩
      · rw [sweep_cons]
        exact hrest.keeps (hfirst.keeps hs)
      · rw [sweep_cons] at hno ⊢
        obtain ⟨hno, hno'⟩ := Bool.or_eq_false_iff.1 hno
        exact (hrest.unchanged (hfirst.keeps hs) hno').trans (hfirst.unchanged hs hno)
      · rw [sweep_cons] at hyes ⊢
        have hnext := hfirst.keeps hs
        cases hmove : (move item s).2 with
        | false =>
            rw [hfirst.unchanged hs hmove] at hyes ⊢
            exact hrest.raised hs (by simpa [hmove] using hyes)
        | true =>
            have hlt := hfirst.raised hs hmove
            cases hmoves : (sweep move items (move item s).1).2 with
            | false =>
                rw [hrest.unchanged hnext hmoves]
                exact hlt
            | true => exact hlt.trans (hrest.raised hnext hmoves)

end RuleGrammar.FixedPoint
