import RuleGrammar.Derivation

/-!
# What trees derive

One statement for each way to build a tree says what it derives, so that later arguments about words
need not open derivations again.

* `derives_reference_iff`, `derives_seq_iff`, `derives_alt_iff`: single nodes.
* `derives_nil_of_iter`: the empty word of an iteration.
* `Derives.iterCons`: an iteration with a round put in front of it.
-/

namespace RuleGrammar

variable {g : Grammar}

/-! ### Nodes -/

/-- A mark of being opened makes no difference to what a reference derives. -/
theorem derives_reference_iff {nt : Nat} {opened : Bool} {w : Word} :
    Derives g (.reference nt opened) w ↔
      nt < g.nonterminals.size ∧ ∃ rule, g.rule? nt = some rule ∧ Derives g rule w := by
  constructor
  · intro h
    cases h with
    | reference hnt hrule h => exact ⟨hnt, _, hrule, h⟩
  · rintro ⟨hnt, rule, hrule, h⟩
    exact Derives.reference hnt hrule h

theorem derives_epsilon_iff {w : Word} : Derives g Tree.epsilon w ↔ w = [] := by
  constructor
  · intro h
    cases h with
    | empty => rfl
    | terminal hne => exact absurd rfl hne
  · rintro rfl
    exact Derives.empty

theorem derives_terminal_iff {t : Nat} (ht : t ≠ 0) {w : Word} :
    Derives g (.terminal t) w ↔ w = [t] := by
  constructor
  · intro h
    cases h with
    | empty => exact absurd rfl ht
    | terminal _ => rfl
  · rintro rfl
    exact Derives.terminal ht

theorem derives_semantic_iff {s : Nat} {w : Word} : Derives g (.semantic s) w ↔ w = [] := by
  constructor
  · intro h
    cases h with
    | semantic => rfl
  · rintro rfl
    exact Derives.semantic

theorem derives_seq_iff {l r : Rule} {w : Word} :
    Derives g (.seq l r) w ↔ ∃ u v, w = u ++ v ∧ Derives g l u ∧ Derives g r v := by
  constructor
  · intro h
    cases h with
    | seq hl hr => exact ⟨_, _, rfl, hl, hr⟩
  · rintro ⟨u, v, rfl, hl, hr⟩
    exact Derives.seq hl hr

theorem derives_alt_iff {l r : Rule} {w : Word} :
    Derives g (.alt l r) w ↔ Derives g l w ∨ Derives g r w := by
  constructor
  · intro h
    cases h with
    | altLeft h => exact Or.inl h
    | altRight h => exact Or.inr h
  · rintro (h | h)
    · exact Derives.altLeft h
    · exact Derives.altRight h

/-- An iteration that derives the empty word has a left part that does. -/
theorem derives_nil_of_iter {l r : Rule} {w : Word} (h : Derives g (.iter l r) w) (hw : w = []) :
    Derives g l [] := by
  cases h with
  | iterOnce h =>
      rw [hw] at h
      exact h
  | iterMore _ _ hl =>
      rw [(List.append_eq_nil_iff.1 hw).2] at hl
      exact hl

/-- A round in front of an iteration is a round of it. -/
theorem Derives.iterCons {l r : Rule} {u v w : Word} (hl : Derives g l u) (hr : Derives g r v)
    (hi : Derives g (.iter l r) w) : Derives g (.iter l r) (u ++ v ++ w) := by
  generalize ht : Tree.iter l r = t at hi
  induction hi with
  | iterOnce h _ =>
      cases ht
      exact Derives.iterMore (Derives.iterOnce hl) hr h
  | @iterMore l' r' x y z _ hr' hl' ih _ _ =>
      cases ht
      have hcat : u ++ v ++ (x ++ y ++ z) = u ++ v ++ x ++ y ++ z := by
        simp only [List.append_assoc]
      rw [hcat]
      exact Derives.iterMore (ih rfl) hr' hl'
  | _ => cases ht

end RuleGrammar
