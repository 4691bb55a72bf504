import Mathlib.Data.List.Perm.Subperm
import RuleGrammar.Proofs.Names
import RuleGrammar.Token.Blank

/-!
# Characters of names

A character that may begin a name begins nothing else, so names are told apart from blanks, signs and
quotations by their first character.  The names that are made fresh are names again.

* `exists_of_covers`: a code point in one of the ranges.
* `isWhiteSpace_of_isNameStart`, `punctuation?_of_isNameStart`, `isQuote_of_isNameStart`: what a first
  character is not.
* `isIdentifier_iff`, `decidableIsIdentifier`, `IsIdentifier.append`: names by their characters.
* `SymbolTable.le_size_of_candidates`: how many candidates a table can hold.
* `SymbolTable.freshName_not_mem`: a fresh name is not in the table.
* `isIdentifier_freshName`: a fresh name is a name.
-/

namespace RuleGrammar

/-! ### Classes -/

theorem Text.CodeRange.exists_of_covers {ranges : List Text.CodeRange} {n : Nat}
    (h : Text.CodeRange.covers ranges n = true) : ∃ r ∈ ranges, r.1 ≤ n ∧ n ≤ r.2 := by
  induction ranges with
  | nil => cases h
  | cons r ranges ih =>
      obtain ⟨first, last⟩ := r
      rw [Text.CodeRange.covers] at h
      split at h
      · cases h
      · next hfirst =>
          split at h
          · next hlast => exact ⟨(first, last), List.mem_cons_self .., by omega, hlast⟩
          · obtain ⟨r, hr, hin⟩ := ih h
            exact ⟨r, List.mem_cons_of_mem _ hr, hin⟩

namespace Token

/-- No blank is alphabetic, and none is an underscore. -/
theorem whiteSpace_not_alphabetic :
    ∀ r ∈ Text.whiteSpaceRanges, ∀ n ∈ List.range' r.1 (r.2 + 1 - r.1),
      Text.CodeRange.covers Text.alphabeticRanges n = false ∧ n ≠ '_'.toNat := by
  decide +kernel

theorem isNameStart_of_isWhiteSpace {c : Char} (h : Text.isWhiteSpace c = true) :
    isNameStart c = false := by
  obtain ⟨r, hr, hfirst, hlast⟩ := Text.CodeRange.exists_of_covers h
  have hmem : c.toNat ∈ List.range' r.1 (r.2 + 1 - r.1) := List.mem_range'_1.2 ⟨hfirst, by omega⟩
  obtain ⟨halpha, hline⟩ := whiteSpace_not_alphabetic r hr c.toNat hmem
  rw [isNameStart, Text.isAlphabetic, halpha, Bool.false_or, beq_eq_false_iff_ne]
  rintro rfl
  exact hline rfl

theorem isWhiteSpace_of_isNameStart {c : Char} (h : isNameStart c = true) :
    Text.isWhiteSpace c = false := by
  by_contra hne
  rw [isNameStart_of_isWhiteSpace (by simpa using hne)] at h
  cases h

theorem ne_of_isNameStart {c d : Char} (hc : isNameStart c = true) (hd : isNameStart d = false) :
    c ≠ d := by
  rintro rfl
  rw [hc] at hd
  cases hd

theorem isQuote_of_isNameStart {c : Char} (h : isNameStart c = true) : isQuote c = false := by
  have hsingle : c ≠ '\'' := ne_of_isNameStart h (by decide +kernel)
  have hdouble : c ≠ '"' := ne_of_isNameStart h (by decide +kernel)
  rw [isQuote, beq_eq_false_iff_ne.2 hsingle, beq_eq_false_iff_ne.2 hdouble]
  rfl

def signs : List Char :=
  ['$', '%', ':', '.', ',', ';', '#', '*', '(', ')', '[', ']', '@', '&']

theorem mem_signs_of_punctuation? {c : Char} {kind : Kind} (h : punctuation? c = some kind) :
    c ∈ signs := by
  unfold punctuation? at h
  split at h <;> first | decide | cases h

theorem signs_spec {c : Char} (h : c ∈ signs) : isQuote c = false ∧ Text.isWhiteSpace c = false ∧
    c ≠ '/' ∧ isNameStart c = false := by
  have hall : (signs.all fun c => decide (isQuote c = false ∧ Text.isWhiteSpace c = false ∧ c ≠ '/' ∧
      isNameStart c = false)) = true := by
    decide +kernel
  exact of_decide_eq_true (List.all_eq_true.1 hall c h)

theorem punctuation?_of_isNameStart {c : Char} (h : isNameStart c = true) : punctuation? c = none := by
  cases hp : punctuation? c with
  | none => rfl
  | some kind =>
      have hc := signs_spec (mem_signs_of_punctuation? hp)
      rw [hc.2.2.2] at h
      cases h

/-! ### Names -/

theorem isIdentifier_iff {s : String} : IsIdentifier s ↔
    ∃ c cs, s.toList = c :: cs ∧ isNameStart c = true ∧ ∀ d ∈ cs, isNameRest d = true := by
  unfold IsIdentifier
  split
  · next h => simp [h]
  · next c cs h =>
      simp only [h, List.cons.injEq, List.all_eq_true]
      constructor
      · rintro ⟨hc, hcs⟩
        exact ⟨c, cs, ⟨rfl, rfl⟩, hc, hcs⟩
      · rintro ⟨_, _, ⟨rfl, rfl⟩, hc, hcs⟩
        exact ⟨hc, hcs⟩

instance decidableIsIdentifier (s : String) : Decidable (IsIdentifier s) :=
  decidable_of_iff
    ((match s.toList with
      | [] => false
      | c :: cs => isNameStart c && cs.all isNameRest) = true)
    (by unfold IsIdentifier; cases s.toList <;> simp)

/-- A name with characters behind it that may continue a name is a name. -/
theorem IsIdentifier.append {s t : String} (hs : IsIdentifier s)
    (ht : ∀ c ∈ t.toList, isNameRest c = true) : IsIdentifier (s ++ t) := by
  obtain ⟨c, cs, hlist, hc, hcs⟩ := isIdentifier_iff.1 hs
  refine isIdentifier_iff.2 ⟨c, cs ++ t.toList, ?_, hc, ?_⟩
  · rw [String.toList_append, hlist, List.cons_append]
  · intro d hd
    rcases List.mem_append.1 hd with hd | hd
    · exact hcs d hd
    · exact ht d hd

theorem isNameRest_of_isDigit {c : Char} (h : c.isDigit = true) : isNameRest c = true := by
  have hall : ∀ n ∈ List.range' 48 10, Text.CodeRange.covers Text.numericRanges n = true := by
    decide +kernel
  have hrange : 48 ≤ c.toNat ∧ c.toNat ≤ 57 := by
    simpa [Char.isDigit, UInt32.le_iff_toNat_le] using h
  have hnum : Text.isNumeric c = true := hall c.toNat (List.mem_range'_1.2 (by omega))
  simp [isNameRest, hnum]

theorem isNameRest_of_mem_repr {n : Nat} {c : Char} (h : c ∈ (Nat.repr n).toList) :
    isNameRest c = true := by
  rw [Nat.repr_eq_ofList_toDigits, String.toList_ofList] at h
  exact isNameRest_of_isDigit (Nat.isDigit_of_mem_toDigits (by decide) (by decide) h)

end Token

/-! ### Fresh names -/

namespace SymbolTable

theorem repr_injective {m n : Nat} (h : Nat.repr m = Nat.repr n) : m = n := by
  rw [Nat.repr_eq_ofList_toDigits, Nat.repr_eq_ofList_toDigits, String.ofList_inj] at h
  rw [← Nat.ofDigitChars_toDigits (b := 10) (n := m) (by decide) (by decide), h,
    Nat.ofDigitChars_toDigits (by decide) (by decide)]

/-- No two candidates are the same. -/
theorem candidate_injective (base : String) {m n : Nat} (h : candidate base m = candidate base n) :
    m = n := by
  have hne : ∀ k, (Nat.repr k).toList ≠ [] := by
    intro k hnil
    rw [Nat.repr_eq_ofList_toDigits, String.toList_ofList] at hnil
    exact absurd hnil (List.ne_nil_of_length_pos Nat.length_toDigits_pos)
  have hlist := congrArg String.toList h
  cases m with
  | zero =>
      cases n with
      | zero => rfl
      | succ n =>
          rw [candidate, candidate, String.toList_append, List.self_eq_append_right] at hlist
          exact absurd hlist (hne _)
  | succ m =>
      cases n with
      | zero =>
          rw [candidate, candidate, String.toList_append, List.append_right_eq_self] at hlist
          exact absurd hlist (hne _)
      | succ n =>
          rw [candidate, candidate, String.toList_append, String.toList_append] at hlist
          exact repr_injective (String.toList_inj.1 (List.append_cancel_left hlist))

/-- The search stops at a candidate that is not in the table, or after all its tries; all candidates
that it passed are in the table. -/
theorem freshFrom_spec (t : SymbolTable) (base : String) (tries : Nat) : ∀ n,
    ∃ k, freshFrom t base tries n = candidate base k ∧ n ≤ k ∧ k ≤ n + tries ∧
      (∀ j, n ≤ j → j < k → candidate base j ∈ t.names) ∧
      (k < n + tries → ¬ candidate base k ∈ t.names) := by
  induction tries with
  | zero =>
      intro n
      exact ⟨n, rfl, by omega, by omega, fun j _ _ => by omega, fun _ => by omega⟩
  | succ tries ih =>
      intro n
      rw [freshFrom]
      split
      · next hmem =>
          obtain ⟨k, heq, hle, hge, hpassed, hnew⟩ := ih (n + 1)
          refine ⟨k, heq, by omega, by omega, ?_, fun h => hnew (by omega)⟩
          intro j hj hlt
          by_cases hjn : j = n
          · rw [hjn]
            exact contains_iff.1 hmem
          · exact hpassed j (by omega) hlt
      · next hmem =>
          refine ⟨n, rfl, by omega, by omega, fun j _ _ => by omega, fun _ hin => ?_⟩
          exact hmem (contains_iff.2 hin)

/-- A table has room for no more of the candidates than it has names. -/
theorem le_size_of_candidates {t : SymbolTable} {base : String} {k : Nat}
    (h : ∀ j, j < k → candidate base j ∈ t.names) : k ≤ t.size := by
  have hnodup : ((List.range k).map (candidate base)).Nodup :=
    List.nodup_range.map_on fun i _ j _ hij => candidate_injective base hij
  have hsub : ∀ name ∈ (List.range k).map (candidate base), name ∈ t.names.toList := by
    intro name hname
    obtain ⟨j, hj, rfl⟩ := List.mem_map.1 hname
    exact Array.mem_toList_iff.2 (h j (List.mem_range.1 hj))
  have hlen := (hnodup.subperm hsub).length_le
  rwa [List.length_map, List.length_range, Array.length_toList] at hlen

/-- A fresh name is one of the candidates, and it is not in the table. -/
theorem freshName_spec (t : SymbolTable) (base : String) :
    ∃ k, t.freshName base = candidate base k ∧ (∀ j, j < k → candidate base j ∈ t.names) ∧
      ¬ candidate base k ∈ t.names := by
  obtain ⟨k, heq, _, hle, hpassed, hnew⟩ := freshFrom_spec t base t.size 0
  refine ⟨k, heq, fun j hj => hpassed j (Nat.zero_le j) hj, fun hmem => ?_⟩
  -- otherwise the table would hold one name more than it has places
  have hk : k = t.size := by
    by_contra hne
    exact hnew (by omega) hmem
  have hall : ∀ j, j < k + 1 → candidate base j ∈ t.names := by
    intro j hj
    rcases Nat.lt_or_eq_of_le (Nat.le_of_lt_succ hj) with hlt | rfl
    · exact hpassed j (Nat.zero_le j) hlt
    · exact hmem
  have hlen := le_size_of_candidates hall
  omega

theorem freshName_not_mem (t : SymbolTable) (base : String) : ¬ t.freshName base ∈ t.names := by
  obtain ⟨k, heq, _, hnot⟩ := freshName_spec t base
  rw [heq]
  exact hnot

/-- A fresh name made from a name is a name. -/
theorem isIdentifier_freshName (t : SymbolTable) {base : String} (h : Token.IsIdentifier base) :
    Token.IsIdentifier (t.freshName base) := by
  obtain ⟨k, heq, _⟩ := freshName_spec t base
  rw [heq]
  cases k with
  | zero => exact h
  | succ k => exact h.append fun c hc => Token.isNameRest_of_mem_repr hc

end SymbolTable

end RuleGrammar
