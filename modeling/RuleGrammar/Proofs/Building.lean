import RuleGrammar.Grammar.Build
import RuleGrammar.Proofs.Legibility
import RuleGrammar.Proofs.WellFormed

/-!
# Grammars hold the records of their documents

Interning an expression lets the tables grow just so far that the expression can be written over their
numbers.  A record adds its rule under the number of its name and leaves all other rules as they are, so
a grammar that was built holds the records of its document, each under the number of its name.

* `Interned`: what interning an expression comes to; `interned_intern`.
* `recorded`: the grammar after a record that is not a repetition.
* `Holds g document`: the grammar holds the records of the document and no other rules.
* `holds_recorded`, `holds_of_ofDocument`, `exists_ofDocument`: documents, record by record.
* `Readable`: the names of the tables can be read back.
* `holds_of_build`, `build_eq_ok_of_toOption`: the grammar of a text.
-/

namespace RuleGrammar.Grammar

open SymbolTable

variable {g g' : Grammar} {nt m : Nat} {rule t : Rule} {name : String} {e : Expr}
  {record : Record} {document : Document}

/-! ### Interning -/

/-- What interning an expression comes to: tables that cover the tree, whose names make up the
expression, and the same rules as before. -/
structure Interned (g : Grammar) (e : Expr) (g' : Grammar) (t : Rule) : Prop where
  grows : g.Grows g'
  covers : g'.Covers t
  named : g'.named t = e
  rule? : ∀ m, g'.rule? m = g.rule? m
  places : g.rules.size = g.nonterminals.size → g'.rules.size = g'.nonterminals.size

theorem grows_addTerminal (g : Grammar) (name : String) : g.Grows (g.addTerminal name) :=
  ⟨extends_insert _ name, Extends.refl _, Extends.refl _⟩

theorem grows_addSemantic (g : Grammar) (name : String) : g.Grows (g.addSemantic name) :=
  ⟨Extends.refl _, Extends.refl _, extends_insert _ name⟩

theorem getD_name?_insert_slot (s : SymbolTable) (name : String) :
    ((s.insert name).name? (s.slot name)).getD "?" = name := by
  rw [name?_insert_slot]
  rfl

/-- One operand after the other. -/
theorem Interned.pair {l r : Expr} {g' g'' : Grammar} {tl tr : Rule} {node : Rule → Rule → Rule}
    {node' : Expr → Expr → Expr} (hcovers : ∀ a b, g''.Covers a → g''.Covers b → g''.Covers (node a b))
    (hnamed : ∀ a b, g''.named (node a b) = node' (g''.named a) (g''.named b))
    (hl : g.Interned l g' tl) (hr : g'.Interned r g'' tr) :
    g.Interned (node' l r) g'' (node tl tr) where
  grows := hl.grows.trans hr.grows
  covers := hcovers _ _ (hr.grows.covers hl.covers) hr.covers
  named := by rw [hnamed, hr.grows.named_eq hl.covers, hl.named, hr.named]
  rule? m := (hr.rule? m).trans (hl.rule? m)
  places h := hr.places (hl.places h)

/-- **Interning an expression gives it numbers and changes no rule.** -/
theorem interned_intern (e : Expr) : ∀ g : Grammar, g.Interned e (g.intern e).1 (g.intern e).2 := by
  induction e with
  | terminal name =>
      intro g
      refine ⟨grows_addTerminal g name, slot_lt_size_insert _ name, ?_, fun _ => rfl, id⟩
      exact congrArg Tree.terminal (getD_name?_insert_slot g.terminals name)
  | semantic name =>
      intro g
      refine ⟨grows_addSemantic g name, slot_lt_size_insert _ name, ?_, fun _ => rfl, id⟩
      exact congrArg Tree.semantic (getD_name?_insert_slot g.semantics name)
  | reference name opened =>
      intro g
      have hmark : ∃ g₀ : Grammar, (if opened then g.addMacro name else g) = g₀ ∧ g.Grows g₀ ∧
          g₀.nonterminals = g.nonterminals ∧ g₀.rules = g.rules := by
        cases opened with
        | true => exact ⟨_, rfl, ⟨Extends.refl _, Extends.refl _, Extends.refl _⟩, rfl, rfl⟩
        | false => exact ⟨_, rfl, Grows.refl g, rfl, rfl⟩
      obtain ⟨g₀, hg₀, hgrows, htable, hrules⟩ := hmark
      rw [intern, hg₀, ← htable]
      refine ⟨hgrows.trans (grows_addNonterminal g₀ name), slot_lt_size_insert _ name, ?_, ?_, ?_⟩
      · exact congrArg (Tree.reference · opened) (getD_name?_insert_slot g₀.nonterminals name)
      · intro m
        rw [rule?_addNonterminal, Grammar.rule?, hrules]
        rfl
      · intro h
        exact size_rules_addNonterminal (by rw [hrules, htable]; exact h) name
  | seq l r ihl ihr =>
      intro g
      exact Interned.pair (fun _ _ ha hb => ⟨ha, hb⟩) (fun _ _ => rfl) (ihl g) (ihr _)
  | alt l r ihl ihr =>
      intro g
      exact Interned.pair (fun _ _ ha hb => ⟨ha, hb⟩) (fun _ _ => rfl) (ihl g) (ihr _)
  | iter l r ihl ihr =>
      intro g
      exact Interned.pair (fun _ _ ha hb => ⟨ha, hb⟩) (fun _ _ => rfl) (ihl g) (ihr _)

/-! ### Records -/

/-- The grammar with the rule of one more record, whether or not its name has a rule. -/
def recorded (g : Grammar) (record : Record) : Grammar :=
  let interned := (g.addNonterminal record.name).intern record.body
  interned.1.setRule (g.nonterminals.slot record.name) interned.2

theorem addRecord_eq (g : Grammar) (record : Record) : g.addRecord record
    = if g.hasRule (g.nonterminals.slot record.name) then
        .error ⟨.duplicateRule record.name, record.span⟩
      else .ok (g.recorded record) := rfl

/-- The grammar holds the records of a document and no other rules. -/
structure Holds (g : Grammar) (document : Document) : Prop extends g.WellFormed where
  places : g.rules.size = g.nonterminals.size
  rule : ∀ record ∈ document, ∃ nt rule, g.nonterminals.name? nt = some record.name ∧
    g.rule? nt = some rule ∧ g.named rule = record.body
  record : ∀ {nt : Nat} {rule : Rule}, g.rule? nt = some rule →
    ∃ record ∈ document, g.nonterminals.name? nt = some record.name
  first : g.nonterminals.name? 0 = document.head?.map Record.name

theorem holds_empty : Grammar.empty.Holds [] where
  owned h := by cases h
  covered h := by cases h
  places := rfl
  rule _ h := by cases h
  record h := by cases h
  first := rfl

theorem name?_slot_recorded (g : Grammar) (record : Record) :
    (g.recorded record).nonterminals.name? (g.nonterminals.slot record.name) = some record.name :=
  (interned_intern record.body _).grows.nonterminals _ _ (name?_insert_slot _ record.name)

theorem rule?_recorded (g : Grammar) (record : Record) (m : Nat) :
    (g.recorded record).rule? m = if m = g.nonterminals.slot record.name then
      some ((g.addNonterminal record.name).intern record.body).2 else g.rule? m := by
  rw [recorded, rule?_setRule, (interned_intern record.body _).rule?, rule?_addNonterminal]

theorem grows_recorded (g : Grammar) (record : Record) : g.Grows (g.recorded record) :=
  ((grows_addNonterminal g record.name).trans (interned_intern record.body _).grows).trans
    (grows_setRule _ _ _)

theorem wellFormed_recorded (hg : g.WellFormed) (record : Record) : (g.recorded record).WellFormed := by
  have hintern := interned_intern record.body (g.addNonterminal record.name)
  have hgrows := (grows_addNonterminal g record.name).trans hintern.grows
  refine (hg.of_grows hgrows fun {m rule} hrule => ?_).setRule
    (lt_size_of_name? (name?_slot_recorded g record)) hintern.covers
  rw [hintern.rule?, rule?_addNonterminal] at hrule
  exact hrule

theorem places_recorded (h : g.rules.size = g.nonterminals.size) (record : Record) :
    (g.recorded record).rules.size = (g.recorded record).nonterminals.size := by
  have hplaces := (interned_intern record.body _).places (size_rules_addNonterminal h record.name)
  rw [recorded, size_rules_setRule (by rw [hplaces]; exact lt_size_of_name? (name?_slot_recorded g record))]
  exact hplaces

/-- A name that is in the table without a rule, or not in the table, gets its rule. -/
theorem holds_recorded (hg : g.Holds document)
    (hnew : g.hasRule (g.nonterminals.slot record.name) = false) :
    (g.recorded record).Holds (document ++ [record]) := by
  have hgrows := grows_recorded g record
  have hname := name?_slot_recorded g record
  have hrules := rule?_recorded g record
  refine ⟨wellFormed_recorded hg.toWellFormed record, places_recorded hg.places record, ?_, ?_, ?_⟩
  · intro other hother
    rcases List.mem_append.1 hother with hother | hother
    · obtain ⟨m, rule, hm, hrule, hnamed⟩ := hg.rule other hother
      have hne : m ≠ g.nonterminals.slot record.name := by
        rintro rfl
        rw [hasRule, hrule] at hnew
        cases hnew
      refine ⟨m, rule, hgrows.nonterminals m _ hm, ?_, ?_⟩
      · rw [hrules, if_neg hne]
        exact hrule
      · rw [hgrows.named_eq (hg.covered hrule)]
        exact hnamed
    · rw [List.mem_singleton.1 hother]
      exact ⟨_, _, hname, by rw [hrules, if_pos rfl], (interned_intern record.body _).named⟩
  · intro m rule hrule
    rw [hrules] at hrule
    split at hrule
    · next hm =>
        rw [hm]
        exact ⟨record, List.mem_append_right _ (List.mem_singleton_self _), hname⟩
    · obtain ⟨other, hother, hm⟩ := hg.record hrule
      exact ⟨other, List.mem_append_left _ hother, hgrows.nonterminals m _ hm⟩
  · have hfirst := hg.first
    cases document with
    | nil =>
        have hsize : g.nonterminals.size = 0 := by
          by_contra hne
          obtain ⟨name, hsome⟩ := exists_name?_of_lt (Nat.pos_of_ne_zero hne)
          rw [hsome] at hfirst
          cases hfirst
        have hslot : g.nonterminals.slot record.name = 0 := by
          have hle := slot_le_size g.nonterminals record.name
          omega
        rw [← hslot]
        exact hname
    | cons first document => exact hgrows.nonterminals 0 _ hfirst

/-- The rule that a record would replace belongs to an earlier record of the same name. -/
theorem exists_of_hasRule (hg : g.Holds document)
    (h : g.hasRule (g.nonterminals.slot name) = true) : ∃ record ∈ document, record.name = name := by
  obtain ⟨rule, hrule⟩ := Option.isSome_iff_exists.1 h
  obtain ⟨record, hrecord, hname⟩ := hg.record hrule
  refine ⟨record, hrecord, ?_⟩
  by_contra hne
  have hmem : name ∈ g.nonterminals.names := by
    by_contra hnot
    have hlt := lt_size_of_name? hname
    rw [slot_of_not_mem hnot] at hlt
    omega
  rw [name?_slot hmem] at hname
  cases hname
  exact hne rfl

/-! ### Documents -/

/-- A grammar that was built from further records holds them as well. -/
theorem holds_foldlM (document : Document) : ∀ {g g' : Grammar} {before : Document},
    g.Holds before → document.foldlM addRecord g = .ok g' → g'.Holds (before ++ document) := by
  induction document with
  | nil =>
      intro g g' before hg h
      cases h
      rw [List.append_nil]
      exact hg
  | cons record document ih =>
      intro g g' before hg h
      rw [List.foldlM_cons, addRecord_eq] at h
      split at h
      · cases h
      · next hnew =>
          have hstep := ih (holds_recorded hg (by simpa using hnew)) h
          rwa [List.append_assoc, List.singleton_append] at hstep

theorem holds_of_ofDocument (h : ofDocument document = .ok g) : g.Holds document :=
  holds_foldlM document holds_empty h

/-- Records of different names enter a grammar without a fault. -/
theorem exists_foldlM (document : Document) : ∀ {g : Grammar} {before : Document},
    g.Holds before → ((before ++ document).map Record.name).Nodup →
      ∃ g', document.foldlM addRecord g = .ok g' := by
  induction document with
  | nil =>
      intro g before _ _
      exact ⟨g, rfl⟩
  | cons record document ih =>
      intro g before hg hnodup
      have hnew : g.hasRule (g.nonterminals.slot record.name) = false := by
        by_contra hne
        obtain ⟨other, hother, hsame⟩ := exists_of_hasRule hg (by simpa using hne)
        rw [List.map_append, List.nodup_append] at hnodup
        refine hnodup.2.2 other.name (List.mem_map_of_mem hother) record.name ?_ hsame
        exact List.mem_map_of_mem (List.mem_cons_self ..)
      rw [List.foldlM_cons, addRecord_eq, hnew]
      refine ih (holds_recorded hg hnew) ?_
      rwa [List.append_assoc, List.singleton_append]

theorem exists_ofDocument (h : (document.map Record.name).Nodup) :
    ∃ g, ofDocument document = .ok g :=
  exists_foldlM document holds_empty h

/-! ### Names of the tables -/

/-- The names of nonterminals and of semantic actions are names, and no terminal holds a line break. -/
structure Readable (g : Grammar) : Prop where
  nonterminals : ∀ name ∈ g.nonterminals.names, Token.IsIdentifier name
  semantics : ∀ name ∈ g.semantics.names, Token.IsIdentifier name
  terminals : ∀ name ∈ g.terminals.names, ¬ '\n' ∈ name.toList

theorem forall_mem_insert {P : String → Prop} {s : SymbolTable} (hs : ∀ name ∈ s.names, P name)
    (hname : P name) : ∀ other ∈ (s.insert name).names, P other := by
  intro other hother
  rcases mem_names_insert.1 hother with hother | rfl
  · exact hs other hother
  · exact hname

theorem Readable.addNonterminal (hg : g.Readable) (hname : Token.IsIdentifier name) :
    (g.addNonterminal name).Readable :=
  ⟨forall_mem_insert hg.nonterminals hname, hg.semantics, hg.terminals⟩

theorem readable_intern (e : Expr) : ∀ {g : Grammar}, g.Readable → e.Legible →
    (g.intern e).1.Readable := by
  induction e with
  | terminal name =>
      intro g hg he
      exact ⟨hg.nonterminals, hg.semantics, forall_mem_insert hg.terminals he⟩
  | semantic name =>
      intro g hg he
      exact ⟨hg.nonterminals, forall_mem_insert hg.semantics he, hg.terminals⟩
  | reference name opened =>
      intro g hg he
      refine Readable.addNonterminal ?_ he
      cases opened with
      | true => exact ⟨hg.nonterminals, hg.semantics, hg.terminals⟩
      | false => exact hg
  | seq l r ihl ihr | alt l r ihl ihr | iter l r ihl ihr =>
      intro g hg he
      exact ihr (ihl hg he.1) he.2

theorem readable_foldlM (document : Document) : ∀ {g g' : Grammar}, g.Readable →
    (∀ record ∈ document, record.Legible) → document.foldlM addRecord g = .ok g' → g'.Readable := by
  induction document with
  | nil =>
      intro g g' hg _ h
      cases h
      exact hg
  | cons record document ih =>
      intro g g' hg hlegible h
      rw [List.foldlM_cons, addRecord_eq] at h
      obtain ⟨hname, hbody⟩ := hlegible record (List.mem_cons_self ..)
      split at h
      · cases h
      · have hnext := readable_intern record.body (hg.addNonterminal hname) hbody
        have hstep : (g.recorded record).Readable :=
          ⟨hnext.nonterminals, hnext.semantics, hnext.terminals⟩
        exact ih hstep (fun other hother => hlegible other (List.mem_cons_of_mem _ hother)) h

theorem readable_empty : Grammar.empty.Readable := by
  refine ⟨fun name h => ?_, fun name h => ?_, forall_mem_insert (fun name h => ?_) (by decide)⟩
  all_goals exact absurd h (Array.not_mem_empty name)

/-- **A grammar that was built from a text holds its records, and its names can be read back.** -/
theorem holds_of_build {text : String} (h : build text = .ok g) :
    g.Readable ∧ ∃ document, Document.read text = .ok document ∧ g.Holds document := by
  unfold build at h
  cases hread : Document.read text with
  | error fault =>
      rw [hread] at h
      cases h
  | ok document =>
      rw [hread] at h
      have hdocument : ofDocument document = .ok g := h
      exact ⟨readable_foldlM document readable_empty (legible_of_read hread) hdocument, document, rfl,
        holds_of_ofDocument hdocument⟩

theorem build_eq_ok_of_toOption {text : String} (h : (build text).toOption = some g) :
    build text = .ok g := by
  cases hbuild : build text with
  | ok g' =>
      rw [hbuild] at h
      cases h
      rfl
  | error fault =>
      rw [hbuild] at h
      cases h

end RuleGrammar.Grammar
