/-!
# Finite sets of numbers

A set is the strictly ascending list of its members, so two sets with the same members are equal and
listing a set lists it in order.

* `NumberSet`: the sets; membership is that of the list.
* `insert`, `union`, `ofList`, `singleton`: the ways to build one.
* `unionMap`, `closure`: unions over a set, and what a step reaches from it.
* `mem_insert`, `mem_union`, `mem_ofList`: what they hold.
* `ext`: sets with the same members are equal.
-/

namespace RuleGrammar

/-- A finite set of numbers, kept as the strictly ascending list of its members. -/
structure NumberSet where
  toList : List Nat
  ascending : toList.Pairwise (· < ·)
deriving DecidableEq

namespace NumberSet

instance : Membership Nat NumberSet where
  mem s n := n ∈ s.toList

theorem mem_def {n : Nat} {s : NumberSet} : n ∈ s ↔ n ∈ s.toList := Iff.rfl

instance (n : Nat) (s : NumberSet) : Decidable (n ∈ s) :=
  inferInstanceAs (Decidable (n ∈ s.toList))

def empty : NumberSet := ⟨[], List.Pairwise.nil⟩

instance : Inhabited NumberSet := ⟨empty⟩

def contains (s : NumberSet) (n : Nat) : Bool := s.toList.contains n

def size (s : NumberSet) : Nat := s.toList.length

def isEmpty (s : NumberSet) : Bool := s.toList.isEmpty

/-! ### Merging ascending lists -/

/-- Puts `x` in its place in an ascending list and hands what lies behind it to `rest`. -/
def place (x : Nat) (rest : List Nat → List Nat) : List Nat → List Nat
  | [] => x :: rest []
  | y :: ys =>
      if y < x then y :: place x rest ys
      else if y = x then x :: rest ys
      else x :: rest (y :: ys)

/-- The ascending list of the members of two ascending lists. -/
def merge : List Nat → List Nat → List Nat
  | [], ys => ys
  | x :: xs, ys => place x (merge xs) ys

theorem mem_place {x n : Nat} {rest : List Nat → List Nat} {xs : List Nat}
    (hrest : ∀ ys, n ∈ rest ys ↔ n ∈ xs ∨ n ∈ ys) (ys : List Nat) :
    n ∈ place x rest ys ↔ n = x ∨ n ∈ xs ∨ n ∈ ys := by
  induction ys with
  | nil => simp [place, hrest]
  | cons y ys ih =>
      rw [place]
      split
      · simp only [List.mem_cons, ih]; grind
      · split
        · next hyx => subst hyx; simp only [List.mem_cons, hrest]; grind
        · simp only [List.mem_cons, hrest]

theorem mem_merge {n : Nat} (xs ys : List Nat) : n ∈ merge xs ys ↔ n ∈ xs ∨ n ∈ ys := by
  induction xs generalizing ys with
  | nil => simp [merge]
  | cons x xs ih => rw [merge, mem_place ih]; simp only [List.mem_cons]; grind

theorem pairwise_place {x : Nat} {rest : List Nat → List Nat} {xs : List Nat}
    (hmem : ∀ n ys, n ∈ rest ys ↔ n ∈ xs ∨ n ∈ ys)
    (hrest : ∀ ys, ys.Pairwise (· < ·) → (rest ys).Pairwise (· < ·))
    (hx : ∀ n ∈ xs, x < n) (ys : List Nat) (hys : ys.Pairwise (· < ·)) :
    (place x rest ys).Pairwise (· < ·) := by
  induction ys with
  | nil =>
      rw [place, List.pairwise_cons]
      exact ⟨fun n hn => hx n (by simpa [hmem] using hn), hrest [] hys⟩
  | cons y ys ih =>
      have hy := List.pairwise_cons.1 hys
      rw [place]
      split
      · next hlt =>
          rw [List.pairwise_cons]
          refine ⟨fun n hn => ?_, ih hy.2⟩
          rcases (mem_place (fun zs => hmem n zs) ys).1 hn with h | h | h
          · omega
          · exact Nat.lt_trans hlt (hx n h)
          · exact hy.1 n h
      · next hlt =>
          split
          · next heq =>
              subst heq
              rw [List.pairwise_cons]
              exact ⟨fun n hn => ((hmem n ys).1 hn).elim (hx n) (hy.1 n), hrest ys hy.2⟩
          · next hne =>
              rw [List.pairwise_cons]
              refine ⟨fun n hn => ?_, hrest _ hys⟩
              rcases (hmem n _).1 hn with h | h
              · exact hx n h
              · rcases List.mem_cons.1 h with rfl | h
                · omega
                · have := hy.1 n h; omega

theorem pairwise_merge {xs : List Nat} (hxs : xs.Pairwise (· < ·)) (ys : List Nat)
    (hys : ys.Pairwise (· < ·)) : (merge xs ys).Pairwise (· < ·) := by
  induction xs generalizing ys with
  | nil => exact hys
  | cons x xs ih =>
      have hx := List.pairwise_cons.1 hxs
      exact pairwise_place (fun n zs => mem_merge xs zs) (fun zs hzs => ih hx.2 zs hzs) hx.1 ys hys

/-! ### Building sets -/

def union (s t : NumberSet) : NumberSet :=
  ⟨merge s.toList t.toList, pairwise_merge s.ascending t.toList t.ascending⟩

def singleton (n : Nat) : NumberSet := ⟨[n], List.pairwise_singleton _ _⟩

def insert (s : NumberSet) (n : Nat) : NumberSet := (singleton n).union s

/-- The set of the members of a list, in whatever order and however often they stand in it. -/
def ofList (ns : List Nat) : NumberSet := ns.foldl insert empty

def disjoint (s t : NumberSet) : Bool := s.toList.all fun n => !t.contains n

/-- The union of the sets that belong to the members of a set. -/
def unionMap (s : NumberSet) (f : Nat → NumberSet) : NumberSet :=
  s.toList.foldl (fun found n => found.union (f n)) empty

/-- The members that `step` reaches from a set in at most `rounds` rounds. -/
def closure (step : Nat → NumberSet) : Nat → NumberSet → NumberSet
  | 0, s => s
  | rounds + 1, s =>
      let larger := s.union (s.unionMap step)
      if larger = s then s else closure step rounds larger

/-! ### Membership -/

@[simp] theorem contains_iff {s : NumberSet} {n : Nat} : s.contains n = true ↔ n ∈ s := by
  simp [contains, mem_def]

@[simp] theorem not_mem_empty (n : Nat) : ¬ n ∈ empty := by
  simp [mem_def, empty]

@[simp] theorem mem_singleton {n m : Nat} : n ∈ singleton m ↔ n = m := by
  simp [mem_def, singleton]

@[simp] theorem mem_union {n : Nat} {s t : NumberSet} : n ∈ s.union t ↔ n ∈ s ∨ n ∈ t :=
  mem_merge s.toList t.toList

@[simp] theorem mem_insert {n m : Nat} {s : NumberSet} : n ∈ s.insert m ↔ n = m ∨ n ∈ s := by
  simp [insert]

theorem mem_foldl_insert {n : Nat} (ns : List Nat) (s : NumberSet) :
    n ∈ ns.foldl insert s ↔ n ∈ s ∨ n ∈ ns := by
  induction ns generalizing s with
  | nil => simp
  | cons m ns ih => rw [List.foldl_cons, ih]; simp only [mem_insert, List.mem_cons]; grind

@[simp] theorem mem_ofList {n : Nat} {ns : List Nat} : n ∈ ofList ns ↔ n ∈ ns := by
  simp [ofList, mem_foldl_insert]

theorem disjoint_iff {s t : NumberSet} : s.disjoint t = true ↔ ∀ n, n ∈ s → ¬ n ∈ t := by
  simp [disjoint, mem_def, contains]

/-! ### Equality -/

theorem eq_of_ascending_of_mem_iff : ∀ {xs ys : List Nat}, xs.Pairwise (· < ·) →
    ys.Pairwise (· < ·) → (∀ n, n ∈ xs ↔ n ∈ ys) → xs = ys
  | [], [], _, _, _ => rfl
  | [], y :: ys, _, _, h => absurd ((h y).2 (by simp)) (by simp)
  | x :: xs, [], _, _, h => absurd ((h x).1 (by simp)) (by simp)
  | x :: xs, y :: ys, hxs, hys, h => by
      rw [List.pairwise_cons] at hxs hys
      have hxy : x = y := by
        rcases List.mem_cons.1 ((h x).1 (by simp)) with hx | hx
        · exact hx
        · rcases List.mem_cons.1 ((h y).2 (by simp)) with hy | hy
          · exact hy.symm
          · have := hys.1 x hx
            have := hxs.1 y hy
            omega
      subst hxy
      refine congrArg (x :: ·) (eq_of_ascending_of_mem_iff hxs.2 hys.2 fun n => ?_)
      have hn := h n
      simp only [List.mem_cons] at hn
      constructor
      · intro hmem
        rcases hn.1 (Or.inr hmem) with heq | hmem'
        · have := hxs.1 n hmem
          omega
        · exact hmem'
      · intro hmem
        rcases hn.2 (Or.inr hmem) with heq | hmem'
        · have := hys.1 n hmem
          omega
        · exact hmem'

/-- Sets with the same members are equal. -/
theorem ext {s t : NumberSet} (h : ∀ n, n ∈ s ↔ n ∈ t) : s = t := by
  obtain ⟨xs, hxs⟩ := s
  obtain ⟨ys, hys⟩ := t
  have := eq_of_ascending_of_mem_iff hxs hys h
  subst this
  rfl

end NumberSet

end RuleGrammar
