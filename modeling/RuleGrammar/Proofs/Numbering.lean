import RuleGrammar.Proofs.Acceptance
import RuleGrammar.Proofs.Building

/-!
# Names are numbered as they come up

The tables of a grammar that is built from a document list the names of the document in the order in
which they come up for the first time, where a record's name comes before its body and the body is gone
through from left to right.  With the tables the rules are fixed: each is the body of its record with
every name replaced by its number.

* `SymbolTable.Lists`: a table with the names of a list in the order of their first appearance.
* `Document.terminals`, `Document.nonterminals`, `Document.semantics`, `Document.openings`: the names of
  a document as they come up.
* `Grammar.Describes g document`: the tables and the rules of a grammar are those of a document.
* `nodup_of_ofDocument`, `describes_of_ofDocument`: what a document without a fault comes to.
* `Grammar.build_accepts_exactly_documents`: which texts are accepted, and what is built from them.
-/

namespace RuleGrammar

/-! ### Names as they come up -/

namespace Tree

variable {α : Type}

def terminals : Tree α → List α
  | .terminal a => [a]
  | .seq l r | .alt l r | .iter l r => l.terminals ++ r.terminals
  | _ => []

def semantics : Tree α → List α
  | .semantic a => [a]
  | .seq l r | .alt l r | .iter l r => l.semantics ++ r.semantics
  | _ => []

def openings (t : Tree α) : List α := (t.mentions.filter Prod.snd).map Prod.fst

end Tree

namespace Document

def terminals (document : Document) : List String := document.flatMap fun r => r.body.terminals

/-- The nonterminals of a document as they come up, the name of each record before its body. -/
def nonterminals (document : Document) : List String :=
  document.flatMap fun r => r.name :: r.body.references

def semantics (document : Document) : List String := document.flatMap fun r => r.body.semantics

def openings (document : Document) : List String := document.flatMap fun r => r.body.openings

end Document

namespace SymbolTable

variable {t : SymbolTable} {seen : List String}

/-- The table lists the names of a list in the order of their first appearance. -/
def Lists (t : SymbolTable) (seen : List String) : Prop := t.names.toList = seen.eraseDups

/-- A name that is added has come up once more. -/
theorem Lists.insert (h : t.Lists seen) (name : String) : (t.insert name).Lists (seen ++ [name]) := by
  have hmem : name ∈ t.names ↔ name ∈ seen := by
    rw [← Array.mem_toList_iff, show t.names.toList = _ from h, List.mem_eraseDups]
  unfold Lists
  rw [List.eraseDups_append, ← show t.names.toList = _ from h]
  by_cases hold : name ∈ seen
  · rw [insert_of_mem (hmem.2 hold)]
    simp [List.removeAll, hold]
  · rw [names_insert_of_not_mem fun hin => hold (hmem.1 hin)]
    simp [List.removeAll, hold, List.eraseDups_cons]

end SymbolTable

namespace Grammar

open SymbolTable

variable {g g' : Grammar} {t : Rule} {record : Record} {document : Document}

/-! ### Tables -/

/-- The tables list the names that have come up. -/
structure Numbers (g : Grammar) (terminals nonterminals semantics openings : List String) : Prop where
  terminals : g.terminals.Lists terminals
  nonterminals : g.nonterminals.Lists nonterminals
  semantics : g.semantics.Lists semantics
  macros : g.macros.Lists openings

/-- **Interning an expression goes on with its names from left to right.** -/
theorem Numbers.intern (e : Expr) : ∀ {g : Grammar} {T N S O : List String}, g.Numbers T N S O →
    (g.intern e).1.Numbers (T ++ e.terminals) (N ++ e.references) (S ++ e.semantics)
      (O ++ e.openings) := by
  induction e with
  | terminal name =>
      intro g T N S O h
      simp only [Tree.references, Tree.openings, Tree.semantics, Tree.mentions, List.map_nil,
        List.filter_nil, List.append_nil]
      exact ⟨h.terminals.insert name, h.nonterminals, h.semantics, h.macros⟩
  | semantic name =>
      intro g T N S O h
      simp only [Tree.references, Tree.openings, Tree.terminals, Tree.mentions, List.map_nil,
        List.filter_nil, List.append_nil]
      exact ⟨h.terminals, h.nonterminals, h.semantics.insert name, h.macros⟩
  | reference name opened =>
      intro g T N S O h
      simp only [Tree.references, Tree.terminals, Tree.semantics, Tree.mentions, List.map_cons,
        List.map_nil, List.append_nil]
      cases opened with
      | true => exact ⟨h.terminals, h.nonterminals.insert name, h.semantics, h.macros.insert name⟩
      | false =>
          refine ⟨h.terminals, h.nonterminals.insert name, h.semantics, ?_⟩
          rw [show (Tree.reference name false).openings = [] from rfl, List.append_nil]
          exact h.macros
  | seq l r ihl ihr | alt l r ihl ihr | iter l r ihl ihr =>
      intro g T N S O h
      have hboth := ihr (ihl h)
      simp only [List.append_assoc] at hboth
      simp only [Tree.references, Tree.openings, Tree.terminals, Tree.semantics, Tree.mentions,
        List.map_append, List.filter_append]
      exact hboth

/-- The tables list the names of a document, with the empty name in front of the terminals. -/
def Lists (g : Grammar) (document : Document) : Prop :=
  g.Numbers ("" :: document.terminals) document.nonterminals document.semantics document.openings

theorem lists_empty : Grammar.empty.Lists [] := by
  have hnone : SymbolTable.empty.Lists [] := rfl
  exact ⟨hnone.insert "", hnone, hnone, hnone⟩

/-- A record goes on with its name and then with the names of its body. -/
theorem Lists.recorded (h : g.Lists document) (record : Record) :
    (g.recorded record).Lists (document ++ [record]) := by
  have hname : (g.addNonterminal record.name).Numbers ("" :: document.terminals)
      (document.nonterminals ++ [record.name]) document.semantics document.openings :=
    ⟨h.terminals, h.nonterminals.insert record.name, h.semantics, h.macros⟩
  have hbody := hname.intern record.body
  simp only [Lists, Document.terminals, Document.nonterminals, Document.semantics, Document.openings,
    List.flatMap_append, List.flatMap_cons, List.flatMap_nil, List.append_nil]
  simp only [Document.terminals, Document.nonterminals, Document.semantics, Document.openings,
    List.append_assoc, List.cons_append] at hbody
  exact ⟨hbody.terminals, hbody.nonterminals, hbody.semantics, hbody.macros⟩

theorem lists_foldlM (document : Document) : ∀ {g g' : Grammar} {before : Document}, g.Lists before →
    document.foldlM addRecord g = .ok g' → g'.Lists (before ++ document) := by
  induction document with
  | nil =>
      intro g g' before h hfold
      cases hfold
      rwa [List.append_nil]
  | cons record document ih =>
      intro g g' before h hfold
      rw [List.foldlM_cons, addRecord_eq] at hfold
      split at hfold
      · cases hfold
      · have hrest := ih (h.recorded record) hfold
        rwa [List.append_assoc, List.singleton_append] at hrest

/-! ### Rules -/

def lowered (g : Grammar) (e : Expr) : Rule :=
  e.rename g.terminals.slot g.semantics.slot g.nonterminals.slot

/-- Numbers that are replaced by their names and names that are replaced by their numbers. -/
theorem lowered_named (ht : g.Covers t) : g.lowered (g.named t) = t := by
  have hslot : ∀ {s : SymbolTable} {i : Nat}, i < s.size → s.slot ((s.name? i).getD "?") = i := by
    intro s i hi
    obtain ⟨name, hname⟩ := exists_name?_of_lt hi
    rw [hname]
    exact slot_of_name? hname
  induction t with
  | terminal t => exact congrArg Tree.terminal (hslot ht)
  | semantic s => exact congrArg Tree.semantic (hslot ht)
  | reference nt opened => exact congrArg (Tree.reference · opened) (hslot ht)
  | seq l r ihl ihr => exact congrArg₂ Tree.seq (ihl ht.1) (ihr ht.2)
  | alt l r ihl ihr => exact congrArg₂ Tree.alt (ihl ht.1) (ihr ht.2)
  | iter l r ihl ihr => exact congrArg₂ Tree.iter (ihl ht.1) (ihr ht.2)

/-- The tables and the rules of a grammar are those of a document: names are numbered as they come up,
each record gives its name its body with numbers for names, and there are no other rules. -/
structure Describes (g : Grammar) (document : Document) : Prop where
  terminals : g.terminals.names.toList = ("" :: document.terminals).eraseDups
  nonterminals : g.nonterminals.names.toList = document.nonterminals.eraseDups
  semantics : g.semantics.names.toList = document.semantics.eraseDups
  macros : g.macros.names.toList = document.openings.eraseDups
  rule : ∀ record ∈ document,
    g.rule? (g.nonterminals.slot record.name) = some (g.lowered record.body)
  only : ∀ nt rule, g.rule? nt = some rule → ∃ record ∈ document, g.nonterminals.slot record.name = nt

theorem describes_of_ofDocument (h : ofDocument document = .ok g) : g.Describes document := by
  have hholds := holds_of_ofDocument h
  have hlists : g.Lists document := lists_foldlM document lists_empty h
  refine ⟨hlists.terminals, hlists.nonterminals, hlists.semantics, hlists.macros, ?_, ?_⟩
  · intro record hrecord
    obtain ⟨nt, rule, hname, hrule, hnamed⟩ := hholds.rule record hrecord
    rw [slot_of_name? hname, hrule, ← hnamed, lowered_named (hholds.covered hrule)]
  · intro nt rule hrule
    obtain ⟨record, hrecord, hname⟩ := hholds.record hrule
    exact ⟨record, hrecord, slot_of_name? hname⟩

/-! ### Repeated names -/

/-- A name without a rule is not the name of a record that the grammar holds. -/
theorem Holds.not_mem_of_hasRule (hg : g.Holds document) {name : String}
    (hnew : g.hasRule (g.nonterminals.slot name) = false) : ¬ name ∈ document.map Record.name := by
  intro hmem
  obtain ⟨record, hrecord, rfl⟩ := List.mem_map.1 hmem
  obtain ⟨nt, rule, hname, hrule, _⟩ := hg.rule record hrecord
  rw [slot_of_name? hname, hasRule, hrule] at hnew
  cases hnew

theorem nodup_foldlM (document : Document) : ∀ {g g' : Grammar} {before : Document},
    g.Holds before → (before.map Record.name).Nodup → document.foldlM addRecord g = .ok g' →
      ((before ++ document).map Record.name).Nodup := by
  induction document with
  | nil =>
      intro g g' before _ hnodup _
      rwa [List.append_nil]
  | cons record document ih =>
      intro g g' before hg hnodup hfold
      rw [List.foldlM_cons, addRecord_eq] at hfold
      split at hfold
      · cases hfold
      · next hnew =>
          have hnew : g.hasRule (g.nonterminals.slot record.name) = false := by simpa using hnew
          have hnext : ((before ++ [record]).map Record.name).Nodup := by
            rw [List.map_append, List.map_singleton, ← List.concat_eq_append]
            exact hnodup.concat (hg.not_mem_of_hasRule hnew)
          have hrest := ih (holds_recorded hg hnew) hnext hfold
          rwa [List.append_assoc, List.singleton_append] at hrest

/-- A document that enters a grammar without a fault repeats no name. -/
theorem nodup_of_ofDocument (h : ofDocument document = .ok g) : (document.map Record.name).Nodup :=
  nodup_foldlM document holds_empty List.nodup_nil h

/-! ### Texts -/

theorem build_eq_ok_iff {text : String} :
    build text = .ok g ↔ ∃ document, Document.read text = .ok document ∧ ofDocument document = .ok g := by
  unfold build
  cases Document.read text with
  | error fault => simp [bind, Except.bind]
  | ok document => simp [bind, Except.bind]

/-- **The reader accepts exactly the documents whose records have different names.**  A text is accepted
if and only if it is cut into tokens without a fault, these have a derivation as a document, and no two
records of it have the same name.  The derivation is then the only one, and the grammar is the one that
its meaning describes. -/
theorem build_accepts_exactly_documents (text : String) :
    ((∃ g, build text = .ok g) ↔ (Token.lex text).fault = none ∧
      ∃ d : DocumentTree, d.tokens = (Token.lex text).tokens ∧ (d.document.map Record.name).Nodup) ∧
    ∀ g, build text = .ok g → ∃ d : DocumentTree, d.tokens = (Token.lex text).tokens ∧
      (∀ d' : DocumentTree, d'.tokens = (Token.lex text).tokens → d' = d) ∧ g.Describes d.document := by
  refine ⟨⟨?_, ?_⟩, ?_⟩
  · rintro ⟨g, hbuild⟩
    obtain ⟨document, hread, hdocument⟩ := build_eq_ok_iff.1 hbuild
    obtain ⟨hfault, d, htokens, rfl⟩ := read_eq_ok_iff.1 hread
    exact ⟨hfault, d, htokens, nodup_of_ofDocument hdocument⟩
  · rintro ⟨hfault, d, htokens, hnodup⟩
    obtain ⟨g, hdocument⟩ := exists_ofDocument hnodup
    exact ⟨g, build_eq_ok_iff.2 ⟨d.document, read_eq_ok_iff.2 ⟨hfault, d, htokens, rfl⟩, hdocument⟩⟩
  · intro g hbuild
    obtain ⟨document, hread, hdocument⟩ := build_eq_ok_iff.1 hbuild
    obtain ⟨_, d, htokens, rfl⟩ := read_eq_ok_iff.1 hread
    refine ⟨d, htokens, fun d' htokens' => ?_, describes_of_ofDocument hdocument⟩
    exact DocumentTree.eq_of_tokens_eq (htokens'.trans htokens.symm)

/-- All three operators, both kinds of brackets, both spellings of a sign, a remark, a name that comes
up before its record and one that has none. -/
def mixedText : String :=
  "S : %B , 'a' # ',' ; [$act , T] . // T has no record\nB : ('b' ; T) * \"a\" , & .\nEOGram!"

def mixed : Grammar := (build mixedText).toOption.getD Grammar.empty

theorem build_mixedText : build mixedText = .ok mixed := build_eq_ok_of_toOption (by decide +kernel)

/-- The mixed text has one derivation, and its names are numbered as they come up. -/
theorem build_accepts_exactly_documents_mixed : build mixedText = .ok mixed ∧
    (∃ d : DocumentTree, d.tokens = (Token.lex mixedText).tokens ∧
      (∀ d' : DocumentTree, d'.tokens = (Token.lex mixedText).tokens → d' = d) ∧
      (d.document.map Record.name).Nodup ∧ mixed.Describes d.document) ∧
    mixed.terminals.names = #["", "a", ",", "b"] ∧ mixed.nonterminals.names = #["S", "B", "T"] ∧
    mixed.semantics.names = #["act"] ∧ mixed.macros.names = #["B"] ∧
    mixed.rule? 0 = some (.alt (.seq (.reference 1 true) (.iter (.terminal 1) (.terminal 2)))
      (.alt (.terminal 0) (.seq (.semantic 0) (.reference 2 false)))) ∧
    mixed.rule? 1 = some (.seq (.iter (.alt (.terminal 3) (.reference 2 false)) (.terminal 1))
      (.terminal 0)) := by
  obtain ⟨hiff, hdescribes⟩ := build_accepts_exactly_documents mixedText
  obtain ⟨d, htokens, hunique, hd⟩ := hdescribes mixed build_mixedText
  obtain ⟨_, d', htokens', hnodup⟩ := hiff.1 ⟨mixed, build_mixedText⟩
  rw [hunique d' htokens'] at hnodup
  exact ⟨build_mixedText, ⟨d, htokens, hunique, hnodup, hd⟩, by decide +kernel⟩

end Grammar

end RuleGrammar
