import RuleGrammar.Proofs.Derivation

/-!
# Words of trees and least languages

What a tree derives, read off the words of its leaves, whatever these are: over numbers or over names,
and for any family of words given to the references.  The languages of a grammar are the least family
that is closed under the rules, and this is how two grammars are compared: each inclusion asks that one
family is closed under the rules of the other grammar.

* `Rounds`: words of an iteration.
* `Tree.Spells`: the words of a tree, given those of its leaves.
* `Spells.simulate`, `Spells.mono_on`: other words for the leaves.
* `spells_substitute`, `spells_rename`, `spells_leftNested`: other trees with the same words.
* `derives_iff_spells`: derivations are a case of it.
* `Grammar.language_least`: the languages are contained in every family closed under the rules.
-/

namespace RuleGrammar

variable {α β γ : Type}

/-! ### Iterations -/

/-- The words made of a word of `L` and any number of rounds of a word of `R` and one of `L`. -/
inductive Rounds (L R : List γ → Prop) : List γ → Prop where
  | once {w : List γ} (h : L w) : Rounds L R w
  | more {u v w : List γ} (hi : Rounds L R u) (hr : R v) (hl : L w) : Rounds L R (u ++ v ++ w)

theorem Rounds.mono {L R L' R' : List γ → Prop} (hL : ∀ w, L w → L' w) (hR : ∀ w, R w → R' w)
    {w : List γ} (h : Rounds L R w) : Rounds L' R' w := by
  induction h with
  | once h => exact Rounds.once (hL _ h)
  | more _ hr hl ih => exact Rounds.more ih (hR _ hr) (hL _ hl)

theorem rounds_congr {L R L' R' : List γ → Prop} (hL : ∀ w, L w ↔ L' w) (hR : ∀ w, R w ↔ R' w)
    {w : List γ} : Rounds L R w ↔ Rounds L' R' w :=
  ⟨Rounds.mono (fun w => (hL w).1) (fun w => (hR w).1),
    Rounds.mono (fun w => (hL w).2) (fun w => (hR w).2)⟩

/-! ### Trees -/

namespace Tree

/-- The words of a tree, given those of its terminals and of its references. -/
def Spells (letter ref : α → List γ → Prop) : Tree α → List γ → Prop
  | .terminal a, w => letter a w
  | .semantic _, w => w = []
  | .reference a _, w => ref a w
  | .seq l r, w => ∃ u v, w = u ++ v ∧ l.Spells letter ref u ∧ r.Spells letter ref v
  | .alt l r, w => l.Spells letter ref w ∨ r.Spells letter ref w
  | .iter l r, w => Rounds (l.Spells letter ref) (r.Spells letter ref) w

/-- Every terminal and every referenced symbol of a tree has a property. -/
def Over (T N : α → Prop) : Tree α → Prop
  | .terminal a => T a
  | .semantic _ => True
  | .reference a _ => N a
  | .seq l r | .alt l r | .iter l r => l.Over T N ∧ r.Over T N

theorem over_true (t : Tree α) : t.Over (fun _ => True) (fun _ => True) := by
  induction t with
  | seq l r ihl ihr | alt l r ihl ihr | iter l r ihl ihr => exact ⟨ihl, ihr⟩
  | _ => trivial

variable {letter letter' ref ref' : α → List γ → Prop}

/-- If every word of a leaf is related to a word of the same leaf in another reading, then so is every
word of the tree, for a relation that goes along with putting words together. -/
theorem Spells.simulate {δ : Type} {letter' ref' : α → List δ → Prop} {P : List γ → List δ → Prop}
    {T N : α → Prop} (hnil : P [] [])
    (happend : ∀ {u v : List γ} {u' v' : List δ}, P u u' → P v v' → P (u ++ v) (u' ++ v'))
    (hletter : ∀ a w, T a → letter a w → ∃ w', P w w' ∧ letter' a w')
    (href : ∀ a w, N a → ref a w → ∃ w', P w w' ∧ ref' a w') {t : Tree α} (ht : t.Over T N) :
    ∀ {w : List γ}, t.Spells letter ref w → ∃ w', P w w' ∧ t.Spells letter' ref' w' := by
  induction t with
  | terminal a =>
      intro w h
      exact hletter a w ht h
  | semantic a =>
      rintro w rfl
      exact ⟨[], hnil, rfl⟩
  | reference a opened =>
      intro w h
      exact href a w ht h
  | seq l r ihl ihr =>
      rintro w ⟨u, v, rfl, hu, hv⟩
      obtain ⟨u', hpu, hu'⟩ := ihl ht.1 hu
      obtain ⟨v', hpv, hv'⟩ := ihr ht.2 hv
      exact ⟨u' ++ v', happend hpu hpv, u', v', rfl, hu', hv'⟩
  | alt l r ihl ihr =>
      rintro w (h | h)
      · obtain ⟨w', hp, h'⟩ := ihl ht.1 h
        exact ⟨w', hp, Or.inl h'⟩
      · obtain ⟨w', hp, h'⟩ := ihr ht.2 h
        exact ⟨w', hp, Or.inr h'⟩
  | iter l r ihl ihr =>
      intro w h
      induction h with
      | once h =>
          obtain ⟨w', hp, h'⟩ := ihl ht.1 h
          exact ⟨w', hp, Rounds.once h'⟩
      | more _ hr hl ih =>
          obtain ⟨u', hpu, hu'⟩ := ih
          obtain ⟨v', hpv, hv'⟩ := ihr ht.2 hr
          obtain ⟨w', hpw, hw'⟩ := ihl ht.1 hl
          exact ⟨u' ++ v' ++ w', happend (happend hpu hpv) hpw, Rounds.more hu' hv' hw'⟩

/-- More words for the leaves of a tree, more words for the tree. -/
theorem Spells.mono_on {T N : α → Prop} (hletter : ∀ a w, T a → letter a w → letter' a w)
    (href : ∀ a w, N a → ref a w → ref' a w) {t : Tree α} (ht : t.Over T N) {w : List γ}
    (h : t.Spells letter ref w) : t.Spells letter' ref' w := by
  obtain ⟨w', rfl, h'⟩ := h.simulate (P := fun w w' => w = w') rfl
    (fun hu hv => by rw [hu, hv]) (fun a w ha hw => ⟨w, rfl, hletter a w ha hw⟩)
    (fun a w ha hw => ⟨w, rfl, href a w ha hw⟩) ht
  exact h'

theorem Spells.mono (href : ∀ a w, ref a w → ref' a w) {t : Tree α} {w : List γ}
    (h : t.Spells letter ref w) : t.Spells letter ref' w :=
  h.mono_on (fun _ _ _ h => h) (fun a w _ h => href a w h) t.over_true

/-- Trees in the place of opened references that have the words of these make no difference. -/
theorem spells_substitute {inline : α → Tree α}
    (hinline : ∀ a w, (inline a).Spells letter ref w ↔ ref a w) {t : Tree α} :
    ∀ {w : List γ}, (t.substitute inline).Spells letter ref w ↔ t.Spells letter ref w := by
  induction t with
  | reference a opened =>
      intro w
      cases opened with
      | true => exact hinline a w
      | false => exact Iff.rfl
  | seq l r ihl ihr =>
      intro w
      simp only [substitute, Spells, ihl, ihr]
  | alt l r ihl ihr =>
      intro w
      simp only [substitute, Spells, ihl, ihr]
  | iter l r ihl ihr =>
      intro w
      exact rounds_congr (fun _ => ihl) (fun _ => ihr)
  | _ =>
      intro w
      exact Iff.rfl

/-- A renamed tree has the words of the tree whose leaves have those of their new names. -/
theorem spells_rename {letter ref : β → List γ → Prop} {terminal semantic nonterminal : α → β}
    {t : Tree α} : ∀ {w : List γ}, (t.rename terminal semantic nonterminal).Spells letter ref w ↔
      t.Spells (fun a => letter (terminal a)) (fun a => ref (nonterminal a)) w := by
  induction t with
  | seq l r ihl ihr =>
      intro w
      simp only [rename, Spells, ihl, ihr]
  | alt l r ihl ihr =>
      intro w
      simp only [rename, Spells, ihl, ihr]
  | iter l r ihl ihr =>
      intro w
      exact rounds_congr (fun _ => ihl) (fun _ => ihr)
  | _ =>
      intro w
      exact Iff.rfl

/-! ### Nesting to the left -/

theorem spells_seqOnto {l : Tree α} (t : Tree α) : ∀ {w : List γ},
    (seqOnto l t).Spells letter ref w ↔ (Tree.seq l t).Spells letter ref w := by
  induction t with
  | seq m r ihm _ =>
      intro w
      simp only [seqOnto, Spells, ihm]
      constructor
      · rintro ⟨_, z, rfl, ⟨x, y, rfl, hx, hy⟩, hz⟩
        exact ⟨x, y ++ z, by rw [List.append_assoc], hx, y, z, rfl, hy, hz⟩
      · rintro ⟨x, _, rfl, hx, y, z, rfl, hy, hz⟩
        exact ⟨x ++ y, z, by rw [List.append_assoc], ⟨x, y, rfl, hx, hy⟩, hz⟩
  | _ =>
      intro w
      exact Iff.rfl

theorem spells_altOnto {l : Tree α} (t : Tree α) : ∀ {w : List γ},
    (altOnto l t).Spells letter ref w ↔ (Tree.alt l t).Spells letter ref w := by
  induction t with
  | alt m r ihm _ =>
      intro w
      simp only [altOnto, Spells, ihm, or_assoc]
  | _ =>
      intro w
      exact Iff.rfl

/-- Nesting chains to the left keeps the words of a tree. -/
theorem spells_leftNested {t : Tree α} : ∀ {w : List γ},
    t.leftNested.Spells letter ref w ↔ t.Spells letter ref w := by
  induction t with
  | seq l r ihl ihr =>
      intro w
      rw [leftNested, spells_seqOnto]
      simp only [Spells, ihl, ihr]
  | alt l r ihl ihr =>
      intro w
      rw [leftNested, spells_altOnto]
      simp only [Spells, ihl, ihr]
  | iter l r ihl ihr =>
      intro w
      exact rounds_congr (fun _ => ihl) (fun _ => ihr)
  | _ =>
      intro w
      exact Iff.rfl

end Tree

/-! ### Derivations -/

/-- The words of a terminal: none but the empty one for the blank symbol, and for any other symbol
that symbol. -/
def Letter [DecidableEq γ] (blank a : γ) (w : List γ) : Prop := w = if a = blank then [] else [a]

theorem derives_terminal_iff_letter {g : Grammar} {t : Nat} {w : Word} :
    Derives g (.terminal t) w ↔ Letter 0 t w := by
  unfold Letter
  by_cases ht : t = 0
  · rw [ht, if_pos rfl]
    exact derives_epsilon_iff
  · rw [if_neg ht]
    exact derives_terminal_iff ht

theorem derives_iter_iff {g : Grammar} {l r : Rule} {w : Word} :
    Derives g (.iter l r) w ↔ Rounds (Derives g l) (Derives g r) w := by
  constructor
  · intro h
    generalize ht : Tree.iter l r = t at h
    induction h with
    | iterOnce h _ =>
        cases ht
        exact Rounds.once h
    | iterMore _ hr hl ih _ _ =>
        cases ht
        exact Rounds.more (ih rfl) hr hl
    | _ => cases ht
  · intro h
    induction h with
    | once h => exact Derives.iterOnce h
    | more _ hr hl ih => exact Derives.iterMore ih hr hl

/-- A tree derives the words that it has when each reference has the words of its nonterminal. -/
theorem derives_iff_spells {g : Grammar} {t : Rule} : ∀ {w : Word},
    Derives g t w ↔ t.Spells (Letter 0) g.Language w := by
  induction t with
  | terminal t =>
      intro w
      exact derives_terminal_iff_letter
  | semantic s =>
      intro w
      exact derives_semantic_iff
  | reference nt opened =>
      intro w
      exact derives_reference_iff.trans derives_reference_iff.symm
  | seq l r ihl ihr =>
      intro w
      rw [derives_seq_iff]
      simp only [Tree.Spells, ihl, ihr]
  | alt l r ihl ihr =>
      intro w
      rw [derives_alt_iff]
      simp only [Tree.Spells, ihl, ihr]
  | iter l r ihl ihr =>
      intro w
      rw [derives_iter_iff]
      exact rounds_congr (fun _ => ihl) (fun _ => ihr)

namespace Grammar

variable {g : Grammar}

theorem language_iff {nt : Nat} {w : Word} : g.Language nt w ↔
    nt < g.nonterminals.size ∧ ∃ rule, g.rule? nt = some rule ∧ Derives g rule w :=
  derives_reference_iff

/-- **The languages of a grammar are least.**  They are contained in every family of words that is
closed under the rules. -/
theorem language_least {S : Nat → Word → Prop}
    (hS : ∀ nt rule w, nt < g.nonterminals.size → g.rule? nt = some rule →
      rule.Spells (Letter 0) S w → S nt w) {nt : Nat} {w : Word} (h : g.Language nt w) : S nt w := by
  have hall : ∀ {t : Rule} {w : Word}, Derives g t w → t.Spells (Letter 0) S w := by
    intro t w hder
    induction hder with
    | empty => exact derives_terminal_iff_letter.1 (Derives.empty (g := g))
    | terminal ht => exact derives_terminal_iff_letter.1 (Derives.terminal (g := g) ht)
    | semantic => rfl
    | reference hnt hrule _ ih => exact hS _ _ _ hnt hrule ih
    | seq _ _ ihl ihr => exact ⟨_, _, rfl, ihl, ihr⟩
    | altLeft _ ih => exact Or.inl ih
    | altRight _ ih => exact Or.inr ih
    | iterOnce _ ih => exact Rounds.once ih
    | iterMore _ _ _ ihi ihr ihl => exact Rounds.more ihi ihr ihl
  exact hall h

end Grammar

end RuleGrammar
