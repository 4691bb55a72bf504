import RuleGrammar.Grammar.WellFormed
import RuleGrammar.Proofs.Language
import RuleGrammar.Proofs.Names

/-!
# Tables and rules

What the steps that change a grammar do to its tables and rules, and that trees stay covered, and keep
their names, when tables grow.

* `rule?_setRule`, `rule?_takeRule`, `rule?_addNonterminal`: the rules after a step.
* `mem_ownedRules`, `map_fst_ownedRules`: the nonterminals that own a rule.
* `size_rules_setRule`, `size_rules_addNonterminal`: the places for rules.
* `decidableCovers`, `decidableWellFormed`: whether the tables cover a tree, and whether a grammar is
  well-formed, can be computed.
* `Grows`: the tables of one grammar extend those of another; `Grows.covers`, `Grows.named_eq`.
* `WellFormed.of_grows`, `WellFormed.setRule`: grammars that stay well-formed.
* `named_injective`: covered trees with the same names are equal.
-/

namespace RuleGrammar.Grammar

variable {g g' g'' : Grammar} {nt m : Nat} {rule t : Rule} {name : String}

/-! ### Rules -/

theorem size_roomFor (rules : Array (Option Rule)) (count : Nat) :
    (roomFor rules count).size = max rules.size count := by
  rw [roomFor, Array.size_append, Array.size_replicate]
  omega

theorem getElem?_roomFor (rules : Array (Option Rule)) (count i : Nat) :
    ((roomFor rules count)[i]?).join = (rules[i]?).join := by
  by_cases hi : i < rules.size
  · rw [roomFor, Array.getElem?_append_left hi]
  · have hnone : rules[i]? = none := Array.getElem?_eq_none (by omega)
    rw [roomFor, Array.getElem?_append_right (by omega), hnone, Array.getElem?_replicate]
    split <;> rfl

theorem rule?_addNonterminal (g : Grammar) (name : String) (m : Nat) :
    (g.addNonterminal name).rule? m = g.rule? m :=
  getElem?_roomFor g.rules _ m

theorem rule?_setRule (g : Grammar) (nt : Nat) (rule : Rule) (m : Nat) :
    (g.setRule nt rule).rule? m = if m = nt then some rule else g.rule? m := by
  have hlt : nt < (roomFor g.rules (nt + 1)).size := by
    rw [size_roomFor]
    omega
  show (((roomFor g.rules (nt + 1)).setIfInBounds nt (some rule))[m]?).join = _
  rw [Array.getElem?_setIfInBounds]
  by_cases hm : m = nt
  · rw [if_pos hm, if_pos hm.symm, if_pos hlt]
    rfl
  · rw [if_neg hm, if_neg fun h => hm h.symm]
    exact getElem?_roomFor g.rules (nt + 1) m

theorem rule?_takeRule (g : Grammar) (nt m : Nat) :
    (g.takeRule nt).rule? m = if m = nt then none else g.rule? m := by
  show ((g.rules.setIfInBounds nt none)[m]?).join = _
  rw [Array.getElem?_setIfInBounds]
  by_cases hm : m = nt
  · rw [if_pos hm, if_pos hm.symm]
    split <;> rfl
  · rw [if_neg hm, if_neg fun h => hm h.symm]
    rfl

theorem size_rules_setRule (hnt : nt < g.rules.size) :
    (g.setRule nt rule).rules.size = g.rules.size := by
  show ((roomFor g.rules (nt + 1)).setIfInBounds nt (some rule)).size = _
  rw [Array.size_setIfInBounds, size_roomFor]
  omega

theorem size_rules_takeRule (g : Grammar) (nt : Nat) : (g.takeRule nt).rules.size = g.rules.size :=
  Array.size_setIfInBounds ..

/-- A new nonterminal comes with a place for its rule. -/
theorem size_rules_addNonterminal (h : g.rules.size = g.nonterminals.size) (name : String) :
    (g.addNonterminal name).rules.size = (g.addNonterminal name).nonterminals.size := by
  have hle := (SymbolTable.extends_insert g.nonterminals name).size_le
  show (roomFor g.rules (g.nonterminals.insert name).size).size = (g.nonterminals.insert name).size
  rw [size_roomFor]
  omega

theorem mem_ownedRules : (nt, rule) ∈ g.ownedRules ↔
    nt < g.nonterminals.size ∧ g.rule? nt = some rule := by
  unfold ownedRules
  simp only [List.mem_filterMap, SymbolTable.ids, List.mem_range, Option.map_eq_some_iff,
    Prod.mk.injEq]
  constructor
  · rintro ⟨n, hn, _, hrule, rfl, rfl⟩
    exact ⟨hn, hrule⟩
  · rintro ⟨hnt, hrule⟩
    exact ⟨nt, hnt, rule, hrule, rfl, rfl⟩

/-- The nonterminals that own a rule, in ascending order. -/
theorem map_fst_ownedRules (g : Grammar) :
    g.ownedRules.map Prod.fst = g.nonterminals.ids.filter g.hasRule := by
  unfold ownedRules
  induction g.nonterminals.ids with
  | nil => rfl
  | cons nt ids ih =>
      rw [List.filterMap_cons, List.filter_cons, hasRule]
      cases g.rule? nt with
      | none => simpa using ih
      | some rule => simpa using ih

theorem start?_eq_some_iff {start : Nat} :
    g.start? = some start ↔ start = 0 ∧ 0 < g.nonterminals.size := by
  unfold start?
  rw [SymbolTable.ids, List.head?_range]
  split <;> simp <;> omega

/-- A rule of the first nonterminal is the first of the rules. -/
theorem head?_ownedRules (hfirst : g.rule? 0 = some rule) (hpos : 0 < g.nonterminals.size) :
    g.ownedRules.head? = some (0, rule) := by
  obtain ⟨count, hcount⟩ : ∃ count, g.nonterminals.size = count + 1 :=
    ⟨g.nonterminals.size - 1, by omega⟩
  have hids : g.nonterminals.ids = 0 :: (List.range count).map Nat.succ := by
    rw [SymbolTable.ids, hcount, List.range_succ_eq_map]
  rw [ownedRules, hids, List.filterMap_cons, hfirst]
  rfl

/-! ### Covered trees -/

instance decidableCovers (g : Grammar) : (t : Rule) → Decidable (g.Covers t)
  | .terminal t => inferInstanceAs (Decidable (t < g.terminals.size))
  | .semantic s => inferInstanceAs (Decidable (s < g.semantics.size))
  | .reference nt _ => inferInstanceAs (Decidable (nt < g.nonterminals.size))
  | .seq l r | .alt l r | .iter l r =>
      @instDecidableAnd _ _ (decidableCovers g l) (decidableCovers g r)

theorem lt_size_of_rule? (h : g.rule? nt = some rule) : nt < g.rules.size := by
  by_contra hnt
  rw [rule?, Array.getElem?_eq_none (by omega)] at h
  cases h

/-- A grammar is well-formed if the stored rules belong to the table and are covered. -/
instance decidableWellFormed (g : Grammar) : Decidable g.WellFormed :=
  decidable_of_iff
    (∀ nt < g.rules.size, ∀ rule ∈ g.rule? nt, nt < g.nonterminals.size ∧ g.Covers rule)
    ⟨fun h => ⟨fun hrule => (h _ (lt_size_of_rule? hrule) _ hrule).1,
      fun hrule => (h _ (lt_size_of_rule? hrule) _ hrule).2⟩,
      fun h _ _ _ hrule => ⟨h.owned hrule, h.covered hrule⟩⟩

theorem Covers.over (h : g.Covers t) :
    t.Over (fun a => a < g.terminals.size) (fun a => a < g.nonterminals.size) := by
  induction t with
  | seq l r ihl ihr | alt l r ihl ihr | iter l r ihl ihr => exact ⟨ihl h.1, ihr h.2⟩
  | semantic s => trivial
  | _ => exact h

/-- The tables of the second grammar keep all numbers of those of the first. -/
structure Grows (g g' : Grammar) : Prop where
  terminals : g.terminals.Extends g'.terminals
  nonterminals : g.nonterminals.Extends g'.nonterminals
  semantics : g.semantics.Extends g'.semantics

theorem Grows.refl (g : Grammar) : g.Grows g :=
  ⟨SymbolTable.Extends.refl _, SymbolTable.Extends.refl _, SymbolTable.Extends.refl _⟩

theorem Grows.trans (h : g.Grows g') (h' : g'.Grows g'') : g.Grows g'' :=
  ⟨h.terminals.trans h'.terminals, h.nonterminals.trans h'.nonterminals,
    h.semantics.trans h'.semantics⟩

theorem grows_setRule (g : Grammar) (nt : Nat) (rule : Rule) : g.Grows (g.setRule nt rule) :=
  ⟨SymbolTable.Extends.refl _, SymbolTable.Extends.refl _, SymbolTable.Extends.refl _⟩

theorem grows_addNonterminal (g : Grammar) (name : String) : g.Grows (g.addNonterminal name) :=
  ⟨SymbolTable.Extends.refl _, SymbolTable.extends_insert _ name, SymbolTable.Extends.refl _⟩

theorem Grows.covers (h : g.Grows g') (ht : g.Covers t) : g'.Covers t := by
  induction t with
  | terminal t => exact Nat.lt_of_lt_of_le ht h.terminals.size_le
  | semantic s => exact Nat.lt_of_lt_of_le ht h.semantics.size_le
  | reference nt opened => exact Nat.lt_of_lt_of_le ht h.nonterminals.size_le
  | seq l r ihl ihr | alt l r ihl ihr | iter l r ihl ihr => exact ⟨ihl ht.1, ihr ht.2⟩

/-- Larger tables and no other rules keep a grammar well-formed. -/
theorem WellFormed.of_grows (hg : g.WellFormed) (hgrows : g.Grows g')
    (hrules : ∀ {m : Nat} {rule : Rule}, g'.rule? m = some rule → g.rule? m = some rule) :
    g'.WellFormed where
  owned h := Nat.lt_of_lt_of_le (hg.owned (hrules h)) hgrows.nonterminals.size_le
  covered h := hgrows.covers (hg.covered (hrules h))

/-- A rule that the tables cover may take the place of any other. -/
theorem WellFormed.setRule (hg : g.WellFormed) (hnt : nt < g.nonterminals.size)
    (hrule : g.Covers rule) : (g.setRule nt rule).WellFormed where
  owned {m other} h := by
    rw [rule?_setRule] at h
    split at h
    · next hm =>
        rw [hm]
        exact hnt
    · exact hg.owned h
  covered {m other} h := by
    refine (grows_setRule g nt rule).covers ?_
    rw [rule?_setRule] at h
    split at h
    · cases h
      exact hrule
    · exact hg.covered h

/-- A covered tree keeps its names when tables grow. -/
theorem Grows.named_eq (h : g.Grows g') (ht : g.Covers t) : g'.named t = g.named t := by
  have hname : ∀ {s s' : SymbolTable} {i : Nat}, s.Extends s' → i < s.size →
      (s'.name? i).getD "?" = (s.name? i).getD "?" := by
    intro s s' i hs hi
    obtain ⟨name, hname⟩ := SymbolTable.exists_name?_of_lt hi
    rw [hname, hs i name hname]
  induction t with
  | terminal t => exact congrArg Tree.terminal (hname h.terminals ht)
  | semantic s => exact congrArg Tree.semantic (hname h.semantics ht)
  | reference nt opened => exact congrArg (Tree.reference · opened) (hname h.nonterminals ht)
  | seq l r ihl ihr => exact congrArg₂ Tree.seq (ihl ht.1) (ihr ht.2)
  | alt l r ihl ihr => exact congrArg₂ Tree.alt (ihl ht.1) (ihr ht.2)
  | iter l r ihl ihr => exact congrArg₂ Tree.iter (ihl ht.1) (ihr ht.2)

/-! ### Names of trees -/

theorem name?_of_getD_eq {s : SymbolTable} {i j : Nat} (hi : i < s.size) (hj : j < s.size)
    (h : (s.name? i).getD "?" = (s.name? j).getD "?") : i = j := by
  obtain ⟨a, ha⟩ := SymbolTable.exists_name?_of_lt hi
  obtain ⟨b, hb⟩ := SymbolTable.exists_name?_of_lt hj
  rw [ha, hb] at h
  cases h
  exact SymbolTable.name?_injective ha hb

/-- Covered trees with the same names are equal. -/
theorem named_injective {u : Rule} (ht : g.Covers t) (hu : g.Covers u)
    (h : g.named t = g.named u) : t = u := by
  induction t generalizing u with
  | terminal t =>
      cases u with
      | terminal u => exact congrArg _ (name?_of_getD_eq ht hu (Tree.terminal.inj h))
      | _ => cases h
  | semantic s =>
      cases u with
      | semantic u => exact congrArg _ (name?_of_getD_eq ht hu (Tree.semantic.inj h))
      | _ => cases h
  | reference nt opened =>
      cases u with
      | reference m opened' =>
          obtain ⟨hname, rfl⟩ := Tree.reference.inj h
          rw [name?_of_getD_eq ht hu hname]
      | _ => cases h
  | seq l r ihl ihr =>
      cases u with
      | seq l' r' =>
          obtain ⟨hl, hr⟩ := Tree.seq.inj h
          rw [ihl ht.1 hu.1 hl, ihr ht.2 hu.2 hr]
      | _ => cases h
  | alt l r ihl ihr =>
      cases u with
      | alt l' r' =>
          obtain ⟨hl, hr⟩ := Tree.alt.inj h
          rw [ihl ht.1 hu.1 hl, ihr ht.2 hu.2 hr]
      | _ => cases h
  | iter l r ihl ihr =>
      cases u with
      | iter l' r' =>
          obtain ⟨hl, hr⟩ := Tree.iter.inj h
          rw [ihl ht.1 hu.1 hl, ihr ht.2 hu.2 hr]
      | _ => cases h

end RuleGrammar.Grammar
