import Mathlib.Algebra.GroupWithZero.Nat
import RuleGrammar.Proofs.Language
import RuleGrammar.Proofs.WellFormed

/-!
# Chains of alternatives and of sequences

A tree has the words of its alternatives, and each of these the words that its elements have one after
the other.  The same holds of a tree that was built from a list of operands.  All of it is said for any
words of the references, so that it can be used for two grammars at once.

* `SpellsEach`: a word cut into words of the trees of a list.
* `spells_iff_sequence`, `spells_iff_alternatives`: a tree by the operands of its topmost chain.
* `spells_of_concatenation`, `spells_of_alternation`, `spells_join_iff`: a tree built from operands.
* `alternatives_of_alternation`, `sequence_of_concatenation`: the operands of a tree that was built;
  `size_of_alternation`, `size_of_concatenation`: its size.
* `Piecewise`: a property of chains that is one of their operands; `piecewise_covers` and its cases.
-/

namespace RuleGrammar

open RuleGrammar.Tree

variable {S : Nat → Word → Prop} {t l r : Rule} {ts us : List Rule} {w : Word}

/-! ### Sequences -/

/-- A word is cut into words of the trees of a list, in order. -/
def SpellsEach (S : Nat → Word → Prop) : List Rule → Word → Prop
  | [], w => w = []
  | t :: ts, w => ∃ u v, w = u ++ v ∧ t.Spells (Letter 0) S u ∧ SpellsEach S ts v

theorem spellsEach_append : SpellsEach S (ts ++ us) w ↔
    ∃ u v, w = u ++ v ∧ SpellsEach S ts u ∧ SpellsEach S us v := by
  induction ts generalizing w with
  | nil =>
      constructor
      · intro h
        exact ⟨[], w, rfl, rfl, h⟩
      · rintro ⟨u, v, rfl, hu, hv⟩
        rw [show u = [] from hu]
        exact hv
  | cons t ts ih =>
      constructor
      · rintro ⟨x, y, rfl, hx, hy⟩
        obtain ⟨u, v, rfl, hu, hv⟩ := ih.1 hy
        exact ⟨x ++ u, v, by rw [List.append_assoc], ⟨x, u, rfl, hx, hu⟩, hv⟩
      · rintro ⟨_, v, rfl, ⟨x, u, rfl, hx, hu⟩, hv⟩
        exact ⟨x, u ++ v, by rw [List.append_assoc], hx, ih.2 ⟨u, v, rfl, hu, hv⟩⟩

theorem spellsEach_singleton : SpellsEach S [t] w ↔ t.Spells (Letter 0) S w := by
  constructor
  · rintro ⟨u, v, rfl, hu, hv⟩
    rw [show v = [] from hv, List.append_nil]
    exact hu
  · intro h
    exact ⟨w, [], by simp, h, rfl⟩

/-- A tree has the words that the operands of its topmost chain of sequences have one after the
other. -/
theorem spells_iff_sequence : t.Spells (Letter 0) S w ↔ SpellsEach S t.sequence w := by
  induction t generalizing w with
  | seq l r ihl ihr =>
      rw [Tree.sequence, spellsEach_append]
      simp only [Spells, ihl, ihr]
  | _ => exact spellsEach_singleton.symm

theorem spells_foldl_seq : (ts.foldl .seq t).Spells (Letter 0) S w ↔ SpellsEach S (t :: ts) w := by
  induction ts generalizing t with
  | nil => exact spellsEach_singleton.symm
  | cons s ts ih =>
      rw [List.foldl_cons, ih, show t :: s :: ts = [t, s] ++ ts from rfl, spellsEach_append]
      constructor
      · rintro ⟨_, v, rfl, ⟨x, y, rfl, hx, hy⟩, hv⟩
        exact ⟨x ++ y, v, rfl, ⟨x, y, rfl, hx, spellsEach_singleton.2 hy⟩, hv⟩
      · rintro ⟨_, v, rfl, ⟨x, y, rfl, hx, hy⟩, hv⟩
        exact ⟨x ++ y, v, rfl, ⟨x, y, rfl, hx, spellsEach_singleton.1 hy⟩, hv⟩

/-- A chain of sequences built from operands has the words that they have one after the other. -/
theorem spells_of_concatenation (h : concatenation ts = some t) :
    t.Spells (Letter 0) S w ↔ SpellsEach S ts w := by
  cases ts with
  | nil => cases h
  | cons s ts =>
      cases h
      exact spells_foldl_seq

/-! ### Alternatives -/

/-- A tree has the words of the operands of its topmost chain of alternatives. -/
theorem spells_iff_alternatives :
    t.Spells (Letter 0) S w ↔ ∃ a ∈ t.alternatives, a.Spells (Letter 0) S w := by
  induction t generalizing w with
  | alt l r ihl ihr =>
      rw [alternatives, Spells, ihl, ihr]
      simp only [List.mem_append, or_and_right, exists_or]
  | _ => simp [alternatives]

theorem spells_foldl_alt : (ts.foldl .alt t).Spells (Letter 0) S w ↔
    t.Spells (Letter 0) S w ∨ ∃ a ∈ ts, a.Spells (Letter 0) S w := by
  induction ts generalizing t with
  | nil => simp
  | cons s ts ih =>
      rw [List.foldl_cons, ih, Spells]
      simp only [List.mem_cons, exists_eq_or_imp, or_assoc]

/-- A chain of alternatives built from operands has the words of any of them. -/
theorem spells_of_alternation (h : alternation ts = some t) :
    t.Spells (Letter 0) S w ↔ ∃ a ∈ ts, a.Spells (Letter 0) S w := by
  cases ts with
  | nil => cases h
  | cons s ts =>
      cases h
      rw [spells_foldl_alt]
      simp only [List.mem_cons, exists_eq_or_imp]

theorem exists_alternation (h : ts ≠ []) : ∃ t, alternation ts = some t := by
  cases ts with
  | nil => exact absurd rfl h
  | cons s ts => exact ⟨_, rfl⟩

theorem exists_concatenation (h : ts ≠ []) : ∃ t, concatenation ts = some t := by
  cases ts with
  | nil => exact absurd rfl h
  | cons s ts => exact ⟨_, rfl⟩

/-! ### The operands of a chain that was built -/

theorem alternatives_foldl_alt :
    (ts.foldl .alt t).alternatives = t.alternatives ++ ts.flatMap alternatives := by
  induction ts generalizing t with
  | nil => simp
  | cons s ts ih => rw [List.foldl_cons, ih, alternatives, List.flatMap_cons, List.append_assoc]

theorem sequence_foldl_seq :
    (ts.foldl .seq t).sequence = t.sequence ++ ts.flatMap Tree.sequence := by
  induction ts generalizing t with
  | nil => simp
  | cons s ts ih => rw [List.foldl_cons, ih, Tree.sequence, List.flatMap_cons, List.append_assoc]

/-- A chain of alternatives built from operands has the alternatives of these. -/
theorem alternatives_of_alternation (h : alternation ts = some t) :
    t.alternatives = ts.flatMap alternatives := by
  cases ts with
  | nil => cases h
  | cons s ts =>
      cases h
      rw [alternatives_foldl_alt, List.flatMap_cons]

/-- A chain of sequences built from operands has the elements of these. -/
theorem sequence_of_concatenation (h : concatenation ts = some t) :
    t.sequence = ts.flatMap Tree.sequence := by
  cases ts with
  | nil => cases h
  | cons s ts =>
      cases h
      rw [sequence_foldl_seq, List.flatMap_cons]

/-- Operands that are no chains of alternatives are the alternatives of the chain they are built
into. -/
theorem alternatives_eq_of_alternation (h : alternation ts = some t)
    (hts : ∀ a ∈ ts, a.alternatives = [a]) : t.alternatives = ts := by
  rw [alternatives_of_alternation h, List.flatMap_congr hts, List.flatMap_singleton']

/-- Operands that are no chains of sequences are the elements of the chain they are built into. -/
theorem sequence_eq_of_concatenation (h : concatenation ts = some t)
    (hts : ∀ a ∈ ts, a.sequence = [a]) : t.sequence = ts := by
  rw [sequence_of_concatenation h, List.flatMap_congr hts, List.flatMap_singleton']

/-- An alternative of a tree is no chain of alternatives. -/
theorem alternatives_of_mem_alternatives {a : Rule} (ha : a ∈ t.alternatives) :
    a.alternatives = [a] := by
  induction t with
  | alt l r ihl ihr =>
      rcases List.mem_append.1 ha with ha | ha
      · exact ihl ha
      · exact ihr ha
  | _ =>
      rw [List.mem_singleton.1 ha]
      rfl

/-- An element of a tree is no chain of sequences. -/
theorem sequence_of_mem_sequence {a : Rule} (ha : a ∈ t.sequence) : a.sequence = [a] := by
  induction t with
  | seq l r ihl ihr =>
      rcases List.mem_append.1 ha with ha | ha
      · exact ihl ha
      · exact ihr ha
  | _ =>
      rw [List.mem_singleton.1 ha]
      rfl

/-- A tree with one element is that element. -/
theorem eq_of_sequence_eq_singleton {a : Rule} (h : t.sequence = [a]) : a = t := by
  cases t with
  | seq l r =>
      have hl := List.length_pos_iff.2 (sequence_ne_nil l)
      have hr := List.length_pos_iff.2 (sequence_ne_nil r)
      have hlength := congrArg List.length h
      rw [Tree.sequence, List.length_append, List.length_singleton] at hlength
      omega
  | _ => exact (List.singleton_inj.1 h).symm

theorem alternatives_foldl_seq :
    (ts.foldl Tree.seq (Tree.seq l r)).alternatives = [ts.foldl Tree.seq (Tree.seq l r)] := by
  induction ts generalizing l r with
  | nil => rfl
  | cons a ts ih => exact ih

/-- A chain of sequences is no chain of alternatives, unless its only operand is one. -/
theorem alternatives_of_concatenation (h : concatenation ts = some t)
    (hts : ∀ a, ts = [a] → a.alternatives = [a]) : t.alternatives = [t] := by
  match ts, h with
  | [a], h =>
      cases h
      exact hts a rfl
  | a :: b :: ts, h =>
      cases h
      exact alternatives_foldl_seq

/-! ### Sizes of chains -/

theorem size_eq_sum_alternatives (t : Rule) : t.size = (t.alternatives.map Tree.size).sum := by
  induction t with
  | alt l r ihl ihr => rw [size, alternatives, List.map_append, List.sum_append, ← ihl, ← ihr]
  | _ => simp [alternatives]

theorem size_eq_sum_sequence (t : Rule) : t.size = (t.sequence.map Tree.size).sum := by
  induction t with
  | seq l r ihl ihr => rw [size, Tree.sequence, List.map_append, List.sum_append, ← ihl, ← ihr]
  | _ => simp [Tree.sequence]

theorem size_foldl {node : Rule → Rule → Rule} (hnode : ∀ l r, (node l r).size = l.size + r.size) :
    (ts.foldl node t).size = t.size + (ts.map Tree.size).sum := by
  induction ts generalizing t with
  | nil => simp
  | cons a ts ih => rw [List.foldl_cons, ih, hnode, List.map_cons, List.sum_cons, Nat.add_assoc]

theorem size_of_alternation (h : alternation ts = some t) : t.size = (ts.map Tree.size).sum := by
  cases ts with
  | nil => cases h
  | cons a ts =>
      cases h
      exact size_foldl fun _ _ => rfl

theorem size_of_concatenation (h : concatenation ts = some t) : t.size = (ts.map Tree.size).sum := by
  cases ts with
  | nil => cases h
  | cons a ts =>
      cases h
      exact size_foldl fun _ _ => rfl

/-! ### Joining -/

theorem eq_epsilon_of_isEpsilon (h : t.isEpsilon = true) : t = epsilon := by
  unfold isEpsilon at h
  split at h
  · rfl
  · cases h

theorem spells_epsilon_iff : epsilon.Spells (Letter 0) S w ↔ w = [] := Iff.rfl

/-- Joining two trees gives the words of their sequence. -/
theorem spells_join_iff : (l.join r).Spells (Letter 0) S w ↔
    ∃ u v, w = u ++ v ∧ l.Spells (Letter 0) S u ∧ r.Spells (Letter 0) S v := by
  unfold join
  split
  · next hl =>
      rw [eq_epsilon_of_isEpsilon hl]
      constructor
      · intro h
        exact ⟨[], w, rfl, rfl, h⟩
      · rintro ⟨u, v, rfl, hu, hv⟩
        rw [spells_epsilon_iff.1 hu]
        exact hv
  · split
    · next hr =>
        rw [eq_epsilon_of_isEpsilon hr]
        constructor
        · intro h
          exact ⟨w, [], by simp, h, rfl⟩
        · rintro ⟨u, v, rfl, hu, hv⟩
          rw [spells_epsilon_iff.1 hv, List.append_nil]
          exact hu
    · exact Iff.rfl

/-- Joining two trees derives what their sequence derives. -/
theorem derives_join_iff {g : Grammar} : Derives g (l.join r) w ↔
    ∃ u v, w = u ++ v ∧ Derives g l u ∧ Derives g r v := by
  simp only [derives_iff_spells, spells_join_iff]

theorem join_reference (b : Rule) (nt : Nat) : b.join (.reference nt false) =
    if b.isEpsilon then .reference nt false else .seq b (.reference nt false) := by
  rw [join, show (Tree.reference nt false : Rule).isEpsilon = false from rfl]
  rfl

theorem alternatives_join_reference (b : Rule) (nt : Nat) :
    (b.join (.reference nt false)).alternatives = [b.join (.reference nt false)] := by
  rw [join_reference]
  split <;> rfl

/-! ### Pieces of chains -/

/-- A property that the tree of the empty word has, and that a chain has just if its operands have
it. -/
structure Piecewise (P : Rule → Prop) : Prop where
  epsilon : P epsilon
  seq : ∀ {l r : Rule}, P (.seq l r) ↔ P l ∧ P r
  alt : ∀ {l r : Rule}, P (.alt l r) ↔ P l ∧ P r

namespace Piecewise

variable {P : Rule → Prop} {a : Rule}

theorem of_mem_alternatives (hP : Piecewise P) (h : P t) (ha : a ∈ t.alternatives) : P a := by
  induction t with
  | alt l r ihl ihr =>
      rcases List.mem_append.1 ha with ha | ha
      · exact ihl (hP.alt.1 h).1 ha
      · exact ihr (hP.alt.1 h).2 ha
  | _ =>
      rw [List.mem_singleton.1 ha]
      exact h

theorem of_mem_sequence (hP : Piecewise P) (h : P t) (ha : a ∈ t.sequence) : P a := by
  induction t with
  | seq l r ihl ihr =>
      rcases List.mem_append.1 ha with ha | ha
      · exact ihl (hP.seq.1 h).1 ha
      · exact ihr (hP.seq.1 h).2 ha
  | _ =>
      rw [List.mem_singleton.1 ha]
      exact h

theorem of_foldl {node : Rule → Rule → Rule} (hnode : ∀ l r, P l → P r → P (node l r)) :
    ∀ {t : Rule}, P t → (∀ a ∈ ts, P a) → P (ts.foldl node t) := by
  induction ts with
  | nil =>
      intro t ht _
      exact ht
  | cons s ts ih =>
      intro t ht hts
      exact ih (hnode t s ht (hts s (List.mem_cons_self ..)))
        fun a ha => hts a (List.mem_cons_of_mem _ ha)

theorem of_alternation (hP : Piecewise P) (h : alternation ts = some t) (hts : ∀ a ∈ ts, P a) :
    P t := by
  cases ts with
  | nil => cases h
  | cons s ts =>
      cases h
      exact of_foldl (fun l r hl hr => hP.alt.2 ⟨hl, hr⟩) (hts s (List.mem_cons_self ..))
        fun a ha => hts a (List.mem_cons_of_mem _ ha)

theorem of_concatenation (hP : Piecewise P) (h : concatenation ts = some t)
    (hts : ∀ a ∈ ts, P a) : P t := by
  cases ts with
  | nil => cases h
  | cons s ts =>
      cases h
      exact of_foldl (fun l r hl hr => hP.seq.2 ⟨hl, hr⟩) (hts s (List.mem_cons_self ..))
        fun a ha => hts a (List.mem_cons_of_mem _ ha)

theorem join (hP : Piecewise P) (hl : P l) (hr : P r) : P (l.join r) := by
  unfold Tree.join
  split
  · exact hr
  · split
    · exact hl
    · exact hP.seq.2 ⟨hl, hr⟩

end Piecewise

/-! ### Covered pieces -/

namespace Grammar

variable {g : Grammar} {a : Rule}

theorem covers_epsilon (g : Grammar) : g.Covers epsilon := SymbolTable.lt_size_of_name? g.emptyName

theorem piecewise_covers (g : Grammar) : Piecewise g.Covers := ⟨covers_epsilon g, Iff.rfl, Iff.rfl⟩

theorem Covers.of_mem_alternatives (h : g.Covers t) (ha : a ∈ t.alternatives) : g.Covers a :=
  (piecewise_covers g).of_mem_alternatives h ha

theorem Covers.of_mem_sequence (h : g.Covers t) (ha : a ∈ t.sequence) : g.Covers a :=
  (piecewise_covers g).of_mem_sequence h ha

theorem covers_of_alternation (h : alternation ts = some t) (hts : ∀ a ∈ ts, g.Covers a) :
    g.Covers t :=
  (piecewise_covers g).of_alternation h hts

theorem covers_of_concatenation (h : concatenation ts = some t) (hts : ∀ a ∈ ts, g.Covers a) :
    g.Covers t :=
  (piecewise_covers g).of_concatenation h hts

theorem covers_join (hl : g.Covers l) (hr : g.Covers r) : g.Covers (l.join r) :=
  (piecewise_covers g).join hl hr

end Grammar

end RuleGrammar
