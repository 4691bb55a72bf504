import Mathlib.Logic.Relation
import Mathlib.Order.Bounds.Basic
import RuleGrammar.Proofs.LeastSolution
import RuleGrammar.Proofs.Recognition
import RuleGrammar.Proofs.Revision.Useless

/-!
# Which rules are useless

A rule stays if its nonterminal derives a word when iterations may be skipped, and if it is linked to the
first such nonterminal through references between such nonterminals.  All other rules go, and they were of
no use: what stays has the words that it had, though it may still refer to what has gone.

* `LooselyDerives`: derivations in which an iteration may be skipped; `Grammar.Fruitful`: nonterminals that
  derive a word in this way.
* `Useless.flag_iff_fruitful`: these are the productive ones.
* `Grammar.Links`, `Grammar.Attained`: what is linked to the first of them.
* `Useless.mark_iff_attained`: this is what stays.
* `Useless.removes_exactly_the_useless`: the result of the revision, and the words of what stays.
-/

namespace RuleGrammar

variable {g : Grammar} {flags : Flags} {nt m n : Nat} {rule t : Rule} {w : Word}

/-! ### Derivations that may skip iterations -/

/-- `LooselyDerives g t w` says that the tree `t` derives the word `w` in the grammar `g` if an iteration
may also be skipped. -/
inductive LooselyDerives (g : Grammar) : Rule → Word → Prop where
  | empty : LooselyDerives g (.terminal 0) []
  | terminal {t : Nat} (h : t ≠ 0) : LooselyDerives g (.terminal t) [t]
  | semantic {s : Nat} : LooselyDerives g (.semantic s) []
  | reference {nt : Nat} {opened : Bool} {rule : Rule} {w : Word} (hnt : nt < g.nonterminals.size)
      (hrule : g.rule? nt = some rule) (h : LooselyDerives g rule w) :
      LooselyDerives g (.reference nt opened) w
  | seq {l r : Rule} {u v : Word} (hl : LooselyDerives g l u) (hr : LooselyDerives g r v) :
      LooselyDerives g (.seq l r) (u ++ v)
  | altLeft {l r : Rule} {w : Word} (h : LooselyDerives g l w) : LooselyDerives g (.alt l r) w
  | altRight {l r : Rule} {w : Word} (h : LooselyDerives g r w) : LooselyDerives g (.alt l r) w
  | iterSkip {l r : Rule} : LooselyDerives g (.iter l r) []
  | iterOnce {l r : Rule} {w : Word} (h : LooselyDerives g l w) : LooselyDerives g (.iter l r) w
  | iterMore {l r : Rule} {u v w : Word} (hi : LooselyDerives g (.iter l r) u)
      (hr : LooselyDerives g r v) (hl : LooselyDerives g l w) :
      LooselyDerives g (.iter l r) (u ++ v ++ w)

/-- A nonterminal derives some word if iterations may be skipped. -/
def Grammar.Fruitful (g : Grammar) (nt : Nat) : Prop := ∃ w, LooselyDerives g (.reference nt false) w

theorem Grammar.Fruitful.exists_rule (h : g.Fruitful nt) :
    nt < g.nonterminals.size ∧ ∃ rule, g.rule? nt = some rule ∧ ∃ w, LooselyDerives g rule w := by
  obtain ⟨w, hw⟩ := h
  cases hw with
  | reference hnt hrule hbody => exact ⟨hnt, _, hrule, w, hbody⟩

/-- A tree that counts as productive derives a word, if what is flagged does. -/
theorem Tree.exists_looselyDerives (hflags : ∀ m, flags.getD m false = true → g.Fruitful m)
    (h : t.productive flags = true) : ∃ w, LooselyDerives g t w := by
  induction t with
  | terminal a =>
      by_cases ha : a = 0
      · rw [ha]
        exact ⟨[], .empty⟩
      · exact ⟨[a], .terminal ha⟩
  | semantic a => exact ⟨[], .semantic⟩
  | reference nt opened =>
      obtain ⟨hnt, rule, hrule, w, hw⟩ := (hflags nt h).exists_rule
      exact ⟨w, .reference hnt hrule hw⟩
  | seq l r ihl ihr =>
      obtain ⟨hl, hr⟩ := Bool.and_eq_true_iff.1 h
      obtain ⟨u, hu⟩ := ihl hl
      obtain ⟨v, hv⟩ := ihr hr
      exact ⟨u ++ v, .seq hu hv⟩
  | alt l r ihl ihr =>
      rcases Bool.or_eq_true_iff.1 h with hl | hr
      · obtain ⟨w, hw⟩ := ihl hl
        exact ⟨w, .altLeft hw⟩
      · obtain ⟨w, hw⟩ := ihr hr
        exact ⟨w, .altRight hw⟩
  | iter l r => exact ⟨[], .iterSkip⟩

namespace Useless

open Grammar FixedPoint

/-! ### Productive nonterminals -/

/-- What is flagged derives a word, however many passes were made. -/
theorem fruitful_of_flag (h : (productive g).value.getD nt false = true) : g.Fruitful nt := by
  have hrun : (run (sweep (flagMove Tree.productive) g.ownedRules) maxPasses
      (Array.replicate g.nonterminals.size false)).value.getD nt false = true := by
    rw [← productivePass_eq_sweep]
    exact h
  refine flags_induction ?_ hrun
  intro flags hflags nt rule hmem hrule
  obtain ⟨hnt, hown⟩ := mem_ownedRules.1 hmem
  obtain ⟨w, hw⟩ := Tree.exists_looselyDerives hflags hrule
  exact ⟨w, .reference hnt hown hw⟩

/-- What derives a word counts as productive once the passes have converged. -/
theorem productive_of_looselyDerives (hsize : g.nonterminals.size ≤ 999)
    (h : LooselyDerives g t w) : t.productive (productive g).value = true := by
  induction h with
  | reference hnt hrule _ ih => exact flag_of_rule (settles_productive hsize).converged hnt hrule ih
  | seq _ _ ihl ihr => simp [Tree.productive, ihl, ihr]
  | altLeft _ ih => simp [Tree.productive, ih]
  | altRight _ ih => simp [Tree.productive, ih]
  | _ => rfl

/-- **What counts as productive is what derives a word if iterations may be skipped.** -/
theorem flag_iff_fruitful (hsize : g.nonterminals.size ≤ 999) :
    (productive g).value.getD nt false = true ↔ g.Fruitful nt := by
  refine ⟨fruitful_of_flag, fun h => ?_⟩
  obtain ⟨w, hw⟩ := h
  exact productive_of_looselyDerives hsize hw

end Useless

/-! ### What stays -/

namespace Grammar

/-- A nonterminal refers to another one, and both are fruitful. -/
def Links (g : Grammar) (m n : Nat) : Prop :=
  g.Fruitful m ∧ g.Fruitful n ∧ ∃ rule, g.rule? m = some rule ∧ n ∈ rule.references

/-- A nonterminal is linked to the first fruitful one, in any number of steps. -/
def Attained (g : Grammar) (nt : Nat) : Prop :=
  ∃ root, IsLeast {nt | g.Fruitful nt} root ∧ Relation.ReflTransGen g.Links root nt

end Grammar

namespace Useless

open Grammar

/-- The rules that are left when the search begins. -/
theorem rule?_productive (hg : g.WellFormed) (hsize : g.nonterminals.size ≤ 999) :
    (clearUnmarked g (productive g).value).grammar.rule? nt = some rule ↔
      g.Fruitful nt ∧ g.rule? nt = some rule := by
  rw [(clearUnmarked_spec hg _).2, ← flag_iff_fruitful hsize]
  split <;> simp [*]

/-- The search begins at the first fruitful nonterminal. -/
theorem root?_productive_iff (hg : g.WellFormed) (hsize : g.nonterminals.size ≤ 999) {root : Nat} :
    root? (clearUnmarked g (productive g).value).grammar (productive g).value = some root ↔
      IsLeast {nt | g.Fruitful nt} root := by
  have howns : ∀ m, (clearUnmarked g (productive g).value).grammar.hasRule m = true ↔ g.Fruitful m := by
    intro m
    rw [hasRule, Option.isSome_iff_exists]
    simp only [rule?_productive hg hsize, exists_and_left]
    exact and_iff_left_of_imp fun h => by
      obtain ⟨_, rule, hrule, _⟩ := h.exists_rule
      exact ⟨rule, hrule⟩
  rw [root?_eq_some_iff]
  simp only [howns, ← Bool.not_eq_true, flag_iff_fruitful hsize]
  constructor
  · intro h
    refine ⟨h.2.1.1, fun m hm => ?_⟩
    by_contra hlt
    exact h.2.2 m (by omega) hm hm
  · intro h
    refine ⟨?_, ⟨h.1, h.1⟩, fun m hlt hm => ?_⟩
    · rw [(clearUnmarked_spec hg _).1.nonterminals]
      exact (Fruitful.exists_rule h.1).1
    · have hle : root ≤ m := h.2 hm
      omega

/-- **What stays is what is linked to the first fruitful nonterminal.** -/
theorem mark_iff_attained (hg : g.WellFormed) (hsize : g.nonterminals.size ≤ 999) :
    (marks g).getD n false = true ↔ g.Attained n := by
  constructor
  · intro h
    refine reachable_sound (P := g.Attained) (fun root hroot => ?_) ?_ h
    · exact ⟨root, (root?_productive_iff hg hsize).1 hroot, .refl⟩
    · intro m rule n hm hrule hn hflag
      obtain ⟨hfruitful, hrule⟩ := (rule?_productive hg hsize).1 hrule
      obtain ⟨root, hroot, hlinks⟩ := hm
      refine ⟨root, hroot, hlinks.tail ⟨hfruitful, fruitful_of_flag hflag, rule, hrule, ?_⟩⟩
      exact List.mem_eraseDups.1 hn
  · intro h
    obtain ⟨root, hroot, hlinks⟩ := h
    induction hlinks with
    | refl => exact reachable_root ((root?_productive_iff hg hsize).2 hroot)
    | tail _ hlast ih =>
        obtain ⟨_, hfruitful, rule, hrule, hn⟩ := hlast
        exact mark_of_reference ih hrule hn ((flag_iff_fruitful hsize).2 hfruitful)

/-! ### What goes -/

theorem pairwise_unmarked (g : Grammar) (marks : Flags) : (unmarked g marks).Pairwise (· < ·) := by
  rw [unmarked, map_fst_ownedRules]
  exact (List.pairwise_lt_range.filter _).filter _

/-- The rules of nonterminals that are not fruitful go first. -/
theorem mem_unmarked_productive (hg : g.WellFormed) (hsize : g.nonterminals.size ≤ 999) :
    nt ∈ unmarked g (productive g).value ↔ g.hasRule nt = true ∧ ¬ g.Fruitful nt := by
  rw [mem_unmarked hg, flag_iff_fruitful hsize]

/-- Then those of fruitful nonterminals that are not linked to the first of them. -/
theorem mem_unmarked_marks (hg : g.WellFormed) (hsize : g.nonterminals.size ≤ 999) :
    nt ∈ unmarked (clearUnmarked g (productive g).value).grammar (marks g) ↔
      g.Fruitful nt ∧ ¬ g.Attained nt := by
  obtain ⟨hthins, _⟩ := clearUnmarked_spec hg (productive g).value
  rw [mem_unmarked (hthins.wellFormed hg), mark_iff_attained hg hsize, hasRule,
    Option.isSome_iff_exists]
  refine and_congr_left fun _ => ⟨fun h => ?_, fun h => ?_⟩
  · obtain ⟨rule, hrule⟩ := h
    exact ((rule?_productive hg hsize).1 hrule).1
  · obtain ⟨_, rule, hrule, _⟩ := h.exists_rule
    exact ⟨rule, (rule?_productive hg hsize).2 ⟨h, hrule⟩⟩

/-- Exactly the rules of the nonterminals that are found are taken away. -/
theorem rule?_removeUseless_eq (g : Grammar) (nt : Nat) : (removeUseless g).grammar.rule? nt =
    if nt ∈ (removeUseless g).result then none else g.rule? nt := by
  have hgrammar : (removeUseless g).grammar = (removeUseless g).result.foldl takeRule g :=
    List.foldl_append.symm
  rw [hgrammar]
  exact (foldl_takeRule_spec _ g).2 nt

/-- What still has a rule has the words that it had. -/
theorem accepts_of_hasRule (hg : g.WellFormed) (hsize : g.nonterminals.size ≤ 999)
    (h : (removeUseless g).grammar.hasRule nt = true) (w : Word) :
    (removeUseless g).grammar.accepts nt w = g.accepts nt w := by
  have hmark : (marks g).getD nt false = true := by
    by_contra hnot
    rw [hasRule, rule?_removeUseless hg, if_neg hnot] at h
    cases h
  rw [Bool.eq_iff_iff, accepts_iff, accepts_iff]
  exact language_of_mark hg (settles_productive hsize).converged hmark

/-- The start symbol has the words that it had, whether it still has a rule or not. -/
theorem accepts_of_start (hg : g.WellFormed) (hsize : g.nonterminals.size ≤ 999)
    (h : g.start? = some nt) (w : Word) :
    (removeUseless g).grammar.accepts nt w = g.accepts nt w := by
  obtain ⟨rfl, _⟩ := start?_eq_some_iff.1 h
  rw [Bool.eq_iff_iff, accepts_iff, accepts_iff]
  exact language_removeUseless hg (settles_productive hsize).converged

/-- **Exactly the useless rules are taken away.**  What is found is first, in ascending order, the owners
of rules that are not fruitful, and then, in ascending order, the fruitful ones that are not linked to the
first of them.  Their rules are taken away and no others.  What still has a rule, and the start symbol,
accepts the words that it accepted before. -/
theorem removes_exactly_the_useless (hg : g.WellFormed) (hsize : g.nonterminals.size ≤ 999) :
    (∃ barren detached, (removeUseless g).result = barren ++ detached ∧
      barren.Pairwise (· < ·) ∧ (∀ nt, nt ∈ barren ↔ g.hasRule nt = true ∧ ¬ g.Fruitful nt) ∧
      detached.Pairwise (· < ·) ∧ ∀ nt, nt ∈ detached ↔ g.Fruitful nt ∧ ¬ g.Attained nt) ∧
    (∀ nt, (removeUseless g).grammar.rule? nt =
      if nt ∈ (removeUseless g).result then none else g.rule? nt) ∧
    ∀ nt, (removeUseless g).grammar.hasRule nt = true ∨ g.start? = some nt →
      ∀ w, (removeUseless g).grammar.accepts nt w = g.accepts nt w := by
  refine ⟨⟨unmarked g (productive g).value,
    unmarked (clearUnmarked g (productive g).value).grammar (marks g), rfl, pairwise_unmarked g _,
    fun nt => mem_unmarked_productive hg hsize, pairwise_unmarked _ _,
    fun nt => mem_unmarked_marks hg hsize⟩, rule?_removeUseless_eq g, fun nt h => ?_⟩
  rcases h with h | h
  · exact accepts_of_hasRule hg hsize h
  · exact accepts_of_start hg hsize h

/-- A start symbol that derives nothing, a list in front of an iteration of what derives nothing, a letter
that is not linked to it, an iteration that can only be skipped, and a name without a rule. -/
def tattered : Grammar where
  terminals := ⟨#["", "m", "n"], by decide⟩
  nonterminals := ⟨#["start", "list", "item", "nothing", "letter", "skipped", "unknown"], by decide⟩
  semantics := SymbolTable.empty
  macros := SymbolTable.empty
  rules := #[
    some (.seq (.reference 0 false) (.terminal 1)),
    some (.alt (.iter (.reference 2 false) (.terminal 2)) (.iter (.reference 3 false) (.terminal 2))),
    some (.alt (.terminal 1) (.seq (.reference 3 false) (.reference 6 false))),
    some (.seq (.reference 3 false) (.reference 4 false)),
    some (.terminal 2),
    some (.iter (.reference 3 false) (.reference 4 false)),
    none]
  emptyName := by decide

/-- The start symbol and `nothing` go first, then the letter and the skipped iteration; the list keeps its
words, though one side of its rule refers to what has gone. -/
theorem removes_exactly_the_useless_tattered : tattered.WellFormed ∧
    (removeUseless tattered).result = [0, 3, 4, 5] ∧
    ¬ tattered.Fruitful 3 ∧ tattered.Fruitful 5 ∧ ¬ tattered.Attained 5 ∧ tattered.Attained 2 ∧
    (removeUseless tattered).grammar.accepts 1 [1, 2, 1] = true ∧
    ∀ w, (removeUseless tattered).grammar.accepts 1 w = tattered.accepts 1 w ∧
      (removeUseless tattered).grammar.accepts 0 w = tattered.accepts 0 w := by
  have hwellFormed : tattered.WellFormed := by decide +kernel
  have hresult : (removeUseless tattered).result = [0, 3, 4, 5] := by decide +kernel
  have hword : tattered.accepts 1 [1, 2, 1] = true := by decide +kernel
  obtain ⟨_, _, hsame⟩ := removes_exactly_the_useless hwellFormed (by decide)
  have hlist := hsame 1 (Or.inl (by decide +kernel))
  have hstart := hsame 0 (Or.inr rfl)
  have hnothing : ¬ tattered.Fruitful 3 := by
    intro h
    exact absurd ((flag_iff_fruitful (by decide)).2 h) (by decide +kernel)
  have hskipped : tattered.Fruitful 5 := fruitful_of_flag (by decide +kernel)
  have hgone : ¬ tattered.Attained 5 := by
    intro h
    exact absurd ((mark_iff_attained hwellFormed (by decide)).2 h) (by decide +kernel)
  have hitem : tattered.Attained 2 :=
    (mark_iff_attained hwellFormed (by decide)).1 (by decide +kernel)
  refine ⟨hwellFormed, hresult, hnothing, hskipped, hgone, hitem, ?_, fun w => ⟨hlist w, hstart w⟩⟩
  rw [hlist]
  exact hword

end Useless

end RuleGrammar
