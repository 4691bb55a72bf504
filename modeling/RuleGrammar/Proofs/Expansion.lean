import RuleGrammar.Grammar.WellFormed
import RuleGrammar.ParseTree
import RuleGrammar.Proofs.Language

/-!
# Expanded trees

An opened reference stands for its rule, so putting the rule in its place changes no word.  Hence a
parse tree over the expanded rules is a derivation, and every derivation is read by such a parse tree.

* `Tree.Closed`: a tree that opens nothing; `expand_of_closed`.
* `expandWithin_reference`: what may stand in the place of a reference.
* `derives_expand_iff`: a tree and its expansion derive the same words.
* `tableExpandedRule?_eq_some_iff`: the expanded rules of the table.
* `ParseTree.derives`: what a parse tree over the expanded rules reads is derived.
* `Derives.exists_parseTree`, `Grammar.Language.exists_parseTree`: what is derived is read by a parse
  tree over the expanded rules.
-/

namespace RuleGrammar

variable {g : Grammar}

namespace Tree

/-- A tree that opens nothing. -/
def Closed (t : Rule) : Prop := ∀ nt, ¬ (nt, true) ∈ t.mentions

theorem Closed.pair {t l r : Rule} (ht : t.mentions = l.mentions ++ r.mentions) (hl : l.Closed)
    (hr : r.Closed) : t.Closed := by
  intro nt h
  rw [ht] at h
  rcases List.mem_append.1 h with h | h
  · exact hl nt h
  · exact hr nt h

/-- In a tree that opens nothing there is nothing to replace. -/
theorem Closed.substitute_eq {t : Rule} (h : t.Closed) (inline : Nat → Rule) :
    t.substitute inline = t := by
  have hparts : ∀ {l r : Rule}, (∀ nt, ¬ (nt, true) ∈ l.mentions ++ r.mentions) →
      l.Closed ∧ r.Closed := fun h =>
    ⟨fun nt hl => h nt (List.mem_append_left _ hl), fun nt hr => h nt (List.mem_append_right _ hr)⟩
  induction t with
  | reference nt opened =>
      cases opened with
      | false => rfl
      | true => exact absurd (List.mem_singleton.2 rfl) (h nt)
  | seq l r ihl ihr | alt l r ihl ihr | iter l r ihl ihr =>
      obtain ⟨hl, hr⟩ := hparts h
      rw [substitute, ihl hl, ihr hr]
  | _ => rfl

end Tree

namespace Grammar

/-! ### Expansion of nodes -/

variable (g) in
theorem expandWithin_seq (depth : Nat) (path : List Nat) (l r : Rule) :
    g.expandWithin depth path (.seq l r)
      = .seq (g.expandWithin depth path l) (g.expandWithin depth path r) := by
  cases depth <;> rfl

variable (g) in
theorem expandWithin_alt (depth : Nat) (path : List Nat) (l r : Rule) :
    g.expandWithin depth path (.alt l r)
      = .alt (g.expandWithin depth path l) (g.expandWithin depth path r) := by
  cases depth <;> rfl

variable (g) in
theorem expandWithin_iter (depth : Nat) (path : List Nat) (l r : Rule) :
    g.expandWithin depth path (.iter l r)
      = .iter (g.expandWithin depth path l) (g.expandWithin depth path r) := by
  cases depth <;> rfl

/-- An expanded reference is a plain one, or the rule that it stands for, expanded less deeply. -/
theorem expandWithin_reference (depth : Nat) (path : List Nat) (nt : Nat) (opened : Bool) :
    g.expandWithin depth path (.reference nt opened) = .reference nt false ∨
      ∃ rule depth' path', depth' < depth ∧ g.rule? nt = some rule ∧
        g.expandWithin depth path (.reference nt opened) = g.expandWithin depth' path' rule := by
  cases opened with
  | false => cases depth <;> exact Or.inl rfl
  | true =>
      cases depth with
      | zero => exact Or.inl rfl
      | succ depth =>
          rw [expandWithin, Tree.substitute]
          cases hrule : g.rule? nt with
          | none => exact Or.inl rfl
          | some rule =>
              show (if path.contains nt then _ else _) = _ ∨ _
              split
              · exact Or.inl rfl
              · exact Or.inr ⟨rule, depth, nt :: path, Nat.lt_succ_self depth, rfl, rfl⟩

/-- A tree that opens nothing is expanded to itself. -/
theorem expand_of_closed {t : Rule} (h : t.Closed) : g.expand t = t := by
  rw [expand]
  cases g.rules.size <;> exact h.substitute_eq _

/-! ### Words -/

/-- The words of an opened reference are those of the rule it names, expanded or not. -/
theorem derives_expandWithin_iff (hg : g.WellFormed) (depth : Nat) :
    ∀ (path : List Nat) (t : Rule) (w : Word),
      Derives g (g.expandWithin depth path t) w ↔ Derives g t w := by
  induction depth with
  | zero =>
      intro path t w
      rw [derives_iff_spells, derives_iff_spells, expandWithin]
      exact Tree.spells_substitute fun _ _ => Iff.rfl
  | succ depth ih =>
      intro path t w
      rw [derives_iff_spells, derives_iff_spells, expandWithin]
      refine Tree.spells_substitute fun id u => ?_
      rw [← derives_iff_spells]
      split
      · next rule hrule =>
          split
          · exact Iff.rfl
          · rw [ih, language_iff]
            constructor
            · intro h
              exact ⟨hg.owned hrule, rule, hrule, h⟩
            · rintro ⟨_, other, hother, h⟩
              rw [hrule] at hother
              cases hother
              exact h
      · exact Iff.rfl

/-- **Expansion keeps every word.** -/
theorem derives_expand_iff (hg : g.WellFormed) {t : Rule} {w : Word} :
    Derives g (g.expand t) w ↔ Derives g t w :=
  derives_expandWithin_iff hg g.rules.size [] t w

theorem tableExpandedRule?_eq_some_iff {nt : Nat} {rule : Rule} :
    g.tableExpandedRule? nt = some rule ↔
      nt < g.nonterminals.size ∧ g.expandedRule? nt = some rule := by
  unfold tableExpandedRule?
  split
  · next hnt => simp only [hnt, true_and]
  · next hnt => simp only [hnt, false_and, reduceCtorEq]

end Grammar

/-- A parse tree over the expanded rules reads a word that its tree derives. -/
theorem ParseTree.derives (hg : g.WellFormed) {t : Rule} (p : ParseTree g.tableExpandedRule? t) :
    Derives g t p.yield := by
  induction p with
  | empty => exact Derives.empty
  | terminal t ht => exact Derives.terminal ht
  | semantic s => exact Derives.semantic
  | reference nt opened h body ih =>
      obtain ⟨hnt, hexpanded⟩ := Grammar.tableExpandedRule?_eq_some_iff.1 h
      obtain ⟨rule, hrule, rfl⟩ := Option.map_eq_some_iff.1 hexpanded
      exact Derives.reference hnt hrule ((Grammar.derives_expand_iff hg).1 ih)
  | seq left right ihl ihr => exact Derives.seq ihl ihr
  | altLeft r left ih => exact Derives.altLeft ih
  | altRight l right ih => exact Derives.altRight ih
  | iterOnce r first ih => exact Derives.iterOnce ih
  | iterMore before between last ihb ihw ihl => exact Derives.iterMore ihb ihw ihl

/-- What a tree derives is read by a parse tree over the expanded rules, to whatever depth the tree is
expanded. -/
theorem Derives.exists_parseTree {t : Rule} {w : Word} (h : Derives g t w) :
    ∀ (depth : Nat) (path : List Nat),
      ∃ p : ParseTree g.tableExpandedRule? (g.expandWithin depth path t), p.yield = w := by
  induction h with
  | empty =>
      intro depth path
      cases depth <;> exact ⟨.empty, rfl⟩
  | terminal ht =>
      intro depth path
      cases depth <;> exact ⟨.terminal _ ht, rfl⟩
  | semantic =>
      intro depth path
      cases depth <;> exact ⟨.semantic _, rfl⟩
  | @reference nt opened rule w hnt hrule _ ih =>
      intro depth path
      obtain hplain | ⟨other, depth', path', _, hother, hopened⟩ :=
        Grammar.expandWithin_reference (g := g) depth path nt opened
      · have hexpanded : g.tableExpandedRule? nt = some (g.expand rule) :=
          Grammar.tableExpandedRule?_eq_some_iff.2 ⟨hnt, by rw [Grammar.expandedRule?, hrule]; rfl⟩
        obtain ⟨body, hbody⟩ := ih g.rules.size []
        rw [hplain]
        exact ⟨.reference nt false hexpanded body, hbody⟩
      · rw [hrule] at hother
        cases hother
        rw [hopened]
        exact ih depth' path'
  | seq _ _ ihl ihr =>
      intro depth path
      obtain ⟨left, hleft⟩ := ihl depth path
      obtain ⟨right, hright⟩ := ihr depth path
      rw [g.expandWithin_seq]
      exact ⟨.seq left right, by rw [ParseTree.yield, hleft, hright]⟩
  | altLeft _ ih =>
      intro depth path
      obtain ⟨left, hleft⟩ := ih depth path
      rw [g.expandWithin_alt]
      exact ⟨.altLeft _ left, hleft⟩
  | altRight _ ih =>
      intro depth path
      obtain ⟨right, hright⟩ := ih depth path
      rw [g.expandWithin_alt]
      exact ⟨.altRight _ right, hright⟩
  | iterOnce _ ih =>
      intro depth path
      obtain ⟨first, hfirst⟩ := ih depth path
      rw [g.expandWithin_iter]
      exact ⟨.iterOnce _ first, hfirst⟩
  | iterMore _ _ _ ihi ihr ihl =>
      intro depth path
      have hrounds := ihi depth path
      rw [g.expandWithin_iter] at hrounds ⊢
      obtain ⟨before, hbefore⟩ := hrounds
      obtain ⟨between, hbetween⟩ := ihr depth path
      obtain ⟨last, hlast⟩ := ihl depth path
      exact ⟨.iterMore before between last, by rw [ParseTree.yield, hbefore, hbetween, hlast]⟩

/-- **What a nonterminal derives is read by a parse tree over the expanded rules.** -/
theorem Grammar.Language.exists_parseTree {nt : Nat} {w : Word} (h : g.Language nt w) :
    ∃ p : ParseTree g.tableExpandedRule? (.reference nt false), p.yield = w :=
  Derives.exists_parseTree h 0 []

end RuleGrammar
