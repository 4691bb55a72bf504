import RuleGrammar.Proofs.Characters

/-!
# The search for a fresh name

The candidates for a fresh name are tried one after the other, and nothing bounds the search itself.  It
comes to an end all the same: no two candidates are the same name, so the table cannot hold more of them
than it has names.

* `Search t base n k`: the search that goes on with the `n`-th candidate ends at the `k`-th.
* `Search.spec`, `search_of_passed`: where a search ends; `Search.unique`: it ends in one place only.
* `name?_insert_iff`: the numbers of a table with a new name.
* `freshName_ends_search`: a fresh name is the first free candidate, and it gets the next number.
-/

namespace RuleGrammar.SymbolTable

variable {t : SymbolTable} {base name added : String} {i k m n : Nat}

/-- The search that goes on with the `n`-th candidate ends at the `k`-th: it ends at a candidate that is
not in the table, and goes on from one that is. -/
inductive Search (t : SymbolTable) (base : String) : Nat → Nat → Prop where
  | found {n : Nat} (h : t.contains (candidate base n) = false) : Search t base n n
  | next {n k : Nat} (h : t.contains (candidate base n) = true) (hnext : Search t base (n + 1) k) :
      Search t base n k

theorem not_contains_iff : t.contains name = false ↔ ¬ name ∈ t.names := by
  rw [← Bool.not_eq_true, contains_iff]

/-- All candidates that a search passes are in use, and the one at which it ends is free. -/
theorem Search.spec (h : Search t base n k) :
    n ≤ k ∧ (∀ j, n ≤ j → j < k → candidate base j ∈ t.names) ∧ ¬ candidate base k ∈ t.names := by
  induction h with
  | found hfree => exact ⟨Nat.le_refl _, fun j hn hk => by omega, not_contains_iff.1 hfree⟩
  | @next n k htaken _ ih =>
      obtain ⟨hle, hpassed, hfree⟩ := ih
      refine ⟨by omega, fun j hn hk => ?_, hfree⟩
      rcases Nat.eq_or_lt_of_le hn with rfl | hlt
      · exact contains_iff.1 htaken
      · exact hpassed j hlt hk

/-- A search passes the candidates that are in use and ends at the first one that is free.  By induction on
how many it has yet to pass. -/
theorem search_of_passed (hle : n ≤ k) (hpassed : ∀ j, n ≤ j → j < k → candidate base j ∈ t.names)
    (hfree : ¬ candidate base k ∈ t.names) : Search t base n k := by
  induction hd : k - n generalizing n with
  | zero =>
      rw [show n = k by omega]
      exact .found (not_contains_iff.2 hfree)
  | succ d ih =>
      have htaken : candidate base n ∈ t.names := hpassed n (Nat.le_refl n) (by omega)
      refine .next (contains_iff.2 htaken) (ih (by omega) (fun j hj => ?_) (by omega))
      exact hpassed j (by omega)

/-- A search ends in one place only: neither of two ends can lie before the other. -/
theorem Search.unique (h : Search t base n k) (h' : Search t base n m) : m = k := by
  obtain ⟨hk, hpassed, hfree⟩ := h.spec
  obtain ⟨hm, hpassed', hfree'⟩ := h'.spec
  rcases Nat.lt_trichotomy m k with hlt | heq | hlt
  · exact absurd (hpassed m hm hlt) hfree'
  · exact heq
  · exact absurd (hpassed' k hk hlt) hfree

/-! ### The number of a new name -/

/-- A new name adds one pair of a number and a name to those of the table. -/
theorem name?_insert_iff (hadded : ¬ added ∈ t.names) : (t.insert added).name? i = some name ↔
    t.name? i = some name ∨ (i = t.size ∧ name = added) := by
  rw [name?, names_insert_of_not_mem hadded, Array.getElem?_push]
  by_cases hi : i = t.names.size
  · have hnone : t.name? i = none := by
      rw [name?, hi]
      exact Array.getElem?_size
    rw [if_pos hi, hnone]
    simp [size, hi, eq_comm]
  · rw [if_neg hi]
    simp [size, hi, name?]

/-- **A fresh name is the first free candidate, and the search for it ends.**  The unbounded search ends
in exactly one place, at most as many numbered candidates away as the table has names.  The candidate
there is the fresh name: it is not in the table, and all candidates before it are.  Adding it gives it the
number that the table had as its size, and changes no pair of a number and a name. -/
theorem freshName_ends_search (t : SymbolTable) (base : String) :
    ∃ k, (∀ m, Search t base 0 m ↔ m = k) ∧ k ≤ t.size ∧
      t.freshName base = candidate base k ∧
      (∀ j, j < k → t.contains (candidate base j) = true) ∧
      t.contains (t.freshName base) = false ∧
      t.slot (t.freshName base) = t.size ∧
      (t.insert (t.freshName base)).size = t.size + 1 ∧
      (∀ i name, (t.insert (t.freshName base)).name? i = some name ↔
        t.name? i = some name ∨ (i = t.size ∧ name = t.freshName base)) ∧
      ∀ name i, (t.insert (t.freshName base)).id? name = some i ↔
        t.id? name = some i ∨ (i = t.size ∧ name = t.freshName base) := by
  obtain ⟨k, hname, hpassed, hfree⟩ := freshName_spec t base
  have hsearch : Search t base 0 k := search_of_passed (Nat.zero_le k) (fun j _ => hpassed j) hfree
  have hnew := freshName_not_mem t base
  refine ⟨k, fun m => ⟨hsearch.unique, fun h => h ▸ hsearch⟩, le_size_of_candidates hpassed, hname,
    fun j hj => contains_iff.2 (hpassed j hj), not_contains_iff.2 hnew, slot_of_not_mem hnew,
    size_insert_of_not_mem hnew, fun i name => name?_insert_iff hnew, fun name i => ?_⟩
  rw [id?_eq_some_iff, id?_eq_some_iff]
  exact name?_insert_iff hnew

/-- The first numbered candidates may be in use in any order. -/
example : SymbolTable.freshName ⟨#["E_rec", "E_rec2", "T", "E_rec1"], by decide⟩ "E_rec" = "E_rec3" := by
  decide +kernel

end RuleGrammar.SymbolTable
