import Mathlib.Data.Finset.Card
import Mathlib.Data.Finset.Range
import RuleGrammar.Proofs.Expansion
import RuleGrammar.Proofs.Recognition
import RuleGrammar.Proofs.WellFormed

/-!
# Opened references are put in place

Putting rules in the place of opened references goes on inside the rules that are put in place, and what
happens to a reference depends on the rules that it stands in.  It comes to an end all the same: no rule
is entered a second time inside itself, so each step down leaves one rule less to be entered.  What it
comes to opens nothing and derives the same words, also where rules open each other in a circle.

* `Inlines g path t u`: what putting rules in place inside those on `path` comes to, as a relation, with
  no bound on the depth; `Inlines.unique`, `Inlines.closed`.
* `unentered`: the rules that can still be entered; `card_unentered_lt`.
* `inlines_expandWithin`, `inlines_iff`: the expansion of a tree is what the relation says, for every path.
* `expansion_total_closed_and_faithful`: all that is known of an expanded tree.
-/

namespace RuleGrammar.Grammar

variable {g : Grammar} {path : List Nat} {t u : Rule}

/-! ### What inlining comes to -/

/-- `g.Inlines path t u` says that putting rules in the place of the opened references of `t`, inside the
rules on `path`, comes to an end with the tree `u`. -/
inductive Inlines (g : Grammar) : List Nat → Rule → Rule → Prop where
  | terminal {path : List Nat} (a : Nat) : Inlines g path (.terminal a) (.terminal a)
  | semantic {path : List Nat} (a : Nat) : Inlines g path (.semantic a) (.semantic a)
  | plain {path : List Nat} (nt : Nat) : Inlines g path (.reference nt false) (.reference nt false)
  | absent {path : List Nat} {nt : Nat} (hrule : g.rule? nt = none) :
      Inlines g path (.reference nt true) (.reference nt false)
  | entered {path : List Nat} {nt : Nat} (hpath : nt ∈ path) :
      Inlines g path (.reference nt true) (.reference nt false)
  | opened {path : List Nat} {nt : Nat} {rule u : Rule} (hrule : g.rule? nt = some rule)
      (hpath : ¬ nt ∈ path) (h : Inlines g (nt :: path) rule u) : Inlines g path (.reference nt true) u
  | seq {path : List Nat} {l r l' r' : Rule} (hl : Inlines g path l l') (hr : Inlines g path r r') :
      Inlines g path (.seq l r) (.seq l' r')
  | alt {path : List Nat} {l r l' r' : Rule} (hl : Inlines g path l l') (hr : Inlines g path r r') :
      Inlines g path (.alt l r) (.alt l' r')
  | iter {path : List Nat} {l r l' r' : Rule} (hl : Inlines g path l l') (hr : Inlines g path r r') :
      Inlines g path (.iter l r) (.iter l' r')

namespace Inlines

/-- Inlining comes to one tree only. -/
theorem unique (h : g.Inlines path t u) : ∀ {v : Rule}, g.Inlines path t v → u = v := by
  induction h with
  | terminal a | semantic a | plain nt =>
      intro v h'
      cases h'
      rfl
  | absent hrule =>
      intro v h'
      cases h' with
      | absent | entered => rfl
      | opened hsome => simp [hrule] at hsome
  | entered hpath =>
      intro v h'
      cases h' with
      | absent | entered => rfl
      | opened _ hout => exact absurd hpath hout
  | opened hrule hpath _ ih =>
      intro v h'
      cases h' with
      | absent hnone => simp [hrule] at hnone
      | entered hin => exact absurd hin hpath
      | opened hsome _ hbody =>
          rw [hrule] at hsome
          cases hsome
          exact ih hbody
  | seq _ _ ihl ihr =>
      intro v h'
      cases h' with
      | seq hl hr => rw [ihl hl, ihr hr]
  | alt _ _ ihl ihr =>
      intro v h'
      cases h' with
      | alt hl hr => rw [ihl hl, ihr hr]
  | iter _ _ ihl ihr =>
      intro v h'
      cases h' with
      | iter hl hr => rw [ihl hl, ihr hr]

/-- What inlining comes to opens nothing. -/
theorem closed (h : g.Inlines path t u) : u.Closed := by
  induction h with
  | opened _ _ _ ih => exact ih
  | seq _ _ ihl ihr | alt _ _ ihl ihr | iter _ _ ihl ihr => exact Tree.Closed.pair rfl ihl ihr
  | _ =>
      intro nt hmem
      simp [Tree.mentions] at hmem

/-- What is put in the place of each opened reference makes up what inlining a tree comes to. -/
theorem substitute {inline : Nat → Rule}
    (hinline : ∀ nt, g.Inlines path (.reference nt true) (inline nt)) (t : Rule) :
    g.Inlines path t (t.substitute inline) := by
  induction t with
  | terminal a => exact .terminal a
  | semantic a => exact .semantic a
  | reference nt opened =>
      cases opened with
      | false => exact .plain nt
      | true => exact hinline nt
  | seq l r ihl ihr => exact .seq ihl ihr
  | alt l r ihl ihr => exact .alt ihl ihr
  | iter l r ihl ihr => exact .iter ihl ihr

end Inlines

/-! ### Inlining comes to an end -/

def unentered (g : Grammar) (path : List Nat) : Finset Nat :=
  Finset.range g.rules.size \ path.toFinset

theorem mem_unentered {nt : Nat} {rule : Rule} (hrule : g.rule? nt = some rule)
    (hpath : ¬ nt ∈ path) : nt ∈ g.unentered path := by
  simp [unentered, lt_size_of_rule? hrule, hpath]

/-- Entering a rule leaves one rule less to be entered. -/
theorem card_unentered_lt {nt : Nat} {rule : Rule} (hrule : g.rule? nt = some rule)
    (hpath : ¬ nt ∈ path) : (g.unentered (nt :: path)).card < (g.unentered path).card := by
  refine Finset.card_lt_card ⟨fun n hn => ?_, fun hsub => ?_⟩
  · simp only [unentered, List.toFinset_cons, Finset.mem_sdiff, Finset.mem_insert] at hn ⊢
    exact ⟨hn.1, fun hmem => hn.2 (Or.inr hmem)⟩
  · have hmem := hsub (mem_unentered hrule hpath)
    simp [unentered] at hmem

/-- **With a depth for each rule that can still be entered, expansion is what inlining comes to.** -/
theorem inlines_expandWithin (depth : Nat) : ∀ (path : List Nat) (t : Rule),
    (g.unentered path).card ≤ depth → g.Inlines path t (g.expandWithin depth path t) := by
  induction depth with
  | zero =>
      intro path t hdepth
      refine Inlines.substitute (fun nt => ?_) t
      cases hrule : g.rule? nt with
      | none => exact .absent hrule
      | some rule =>
          -- no rule is left to be entered, so this one is on the path
          refine .entered ?_
          by_contra hpath
          have hpos := Finset.card_pos.2 ⟨nt, mem_unentered hrule hpath⟩
          omega
  | succ depth ih =>
      intro path t hdepth
      refine Inlines.substitute (fun nt => ?_) t
      cases hrule : g.rule? nt with
      | none => exact .absent hrule
      | some rule =>
          show g.Inlines path _ (if path.contains nt then _ else _)
          by_cases hpath : nt ∈ path
          · rw [if_pos (by simpa using hpath)]
            exact .entered hpath
          · have hlt := card_unentered_lt hrule hpath
            rw [if_neg (by simpa using hpath)]
            exact .opened hrule hpath (ih (nt :: path) rule (by omega))

theorem card_unentered_le (g : Grammar) (path : List Nat) :
    (g.unentered path).card ≤ g.rules.size := by
  calc (g.unentered path).card ≤ (Finset.range g.rules.size).card :=
        Finset.card_le_card Finset.sdiff_subset
    _ = g.rules.size := Finset.card_range _

/-- **Inlining comes to an end, in one tree.**  The depth of as many levels as there are places for rules
is never what ends it. -/
theorem inlines_iff : g.Inlines path t u ↔ u = g.expandWithin g.rules.size path t := by
  have hend := inlines_expandWithin g.rules.size path t (card_unentered_le g path)
  constructor
  · intro h
    exact h.unique hend
  · intro h
    rw [h]
    exact hend

theorem inlines_expand (g : Grammar) (t : Rule) : g.Inlines [] t (g.expand t) := inlines_iff.2 rfl

/-- **Expansion is total and keeps the meaning of a tree.**  Putting rules in the place of opened
references comes to an end, in the expanded tree and in no other; this opens nothing, derives the words
that the tree derives, and is answered alike by the recognizer. -/
theorem expansion_total_closed_and_faithful (hg : g.WellFormed) (t : Rule) :
    (∀ u, g.Inlines [] t u ↔ u = g.expand t) ∧
      (∀ nt, ¬ (nt, true) ∈ (g.expand t).mentions) ∧
      ∀ w, (Derives g (g.expand t) w ↔ Derives g t w) ∧
        g.recognizes (g.expand t) w = g.recognizes t w := by
  refine ⟨fun u => inlines_iff, (inlines_expand g t).closed, fun w => ?_⟩
  have hwords : Derives g (g.expand t) w ↔ Derives g t w := derives_expand_iff hg
  refine ⟨hwords, ?_⟩
  rw [Bool.eq_iff_iff, recognizes_iff, recognizes_iff]
  exact hwords

/-- Two rules that open each other, one of which opens itself, with an opened name that has no rule. -/
def circular : Grammar where
  terminals := ⟨#["", "k", "l", "m"], by decide⟩
  nonterminals := ⟨#["S", "M", "N", "X"], by decide⟩
  semantics := SymbolTable.empty
  macros := ⟨#["M", "N", "X"], by decide⟩
  rules := #[
    some (.seq (.reference 1 true) (.reference 2 true)),
    some (.alt (.terminal 1) (.seq (.reference 2 true) (.reference 1 true))),
    some (.alt (.seq (.terminal 2) (.reference 1 true)) (.alt (.terminal 3) (.reference 3 true))),
    none]
  emptyName := by decide

/-- The two rules are put in place in different forms: the first time around with the other one inside,
the second time the other way round, each cut where it comes up again. -/
theorem expansion_total_closed_and_faithful_circular : circular.WellFormed ∧
    circular.expand (.reference 0 true) = .seq
      (.alt (.terminal 1) (.seq
        (.alt (.seq (.terminal 2) (.reference 1 false)) (.alt (.terminal 3) (.reference 3 false)))
        (.reference 1 false)))
      (.alt (.seq (.terminal 2)
        (.alt (.terminal 1) (.seq (.reference 2 false) (.reference 1 false))))
        (.alt (.terminal 3) (.reference 3 false))) ∧
    circular.recognizes (.reference 0 true) [3, 1, 2, 1] = true ∧
    circular.recognizes (circular.expand (.reference 0 true)) [3, 1, 2, 1] = true ∧
    ∀ w, Derives circular (circular.expand (.reference 0 true)) w ↔
      Derives circular (.reference 0 true) w := by
  have hwellFormed : circular.WellFormed := by decide +kernel
  have hword : circular.recognizes (.reference 0 true) [3, 1, 2, 1] = true := by decide +kernel
  have hall := (expansion_total_closed_and_faithful hwellFormed (.reference 0 true)).2.2
  refine ⟨hwellFormed, by decide +kernel, hword, ?_, fun w => (hall w).1⟩
  rw [(hall _).2]
  exact hword

end RuleGrammar.Grammar
