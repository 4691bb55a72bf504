import RuleGrammar.Grammar.Text
import RuleGrammar.Proofs.Building

/-!
# Reading undoes writing

The document of a grammar is read back, and the grammar that is built from it gives every name the rule
that it had, with chains nested to the left.

* `ruleOf?`: the rule of a name, over names.
* `lexes_toText`: the tokens of the document.
* `exists_documentPhrase`: the records that they form.
* `exists_build_toText`: the document of a grammar is read, and by name the rules are the same.
-/

namespace RuleGrammar.Grammar

open Token (Kind Lexes essence)
open SymbolTable

variable {g g' : Grammar} {nt : Nat} {rule : Rule} {name : String} {e : Expr} {document : Document}

/-- The rule of a name, over names. -/
def ruleOf? (g : Grammar) (name : String) : Option Expr :=
  (g.nonterminals.id? name).bind fun nt => (g.rule? nt).map g.named

theorem ruleOf?_eq_some_iff : g.ruleOf? name = some e ↔
    ∃ nt rule, g.nonterminals.name? nt = some name ∧ g.rule? nt = some rule ∧ g.named rule = e := by
  unfold ruleOf?
  simp only [Option.bind_eq_some_iff, Option.map_eq_some_iff, id?_eq_some_iff]
  constructor
  · rintro ⟨nt, hname, rule, hrule, hnamed⟩
    exact ⟨nt, rule, hname, hrule, hnamed⟩
  · rintro ⟨nt, rule, hname, hrule, hnamed⟩
    exact ⟨nt, hname, rule, hrule, hnamed⟩

theorem nonterminalName_eq_of_name? (h : g.nonterminals.name? nt = some name) :
    g.nonterminalName nt = name := by
  rw [nonterminalName, h]
  rfl

theorem name?_eq_nonterminalName (h : nt < g.nonterminals.size) :
    g.nonterminals.name? nt = some (g.nonterminalName nt) := by
  obtain ⟨name, hname⟩ := exists_name?_of_lt h
  rw [hname, nonterminalName_eq_of_name? hname]

/-- A grammar that holds records gives each name the rule of its record. -/
theorem Holds.ruleOf?_iff (hg : g.Holds document) : g.ruleOf? name = some e ↔
    ∃ record ∈ document, record.name = name ∧ record.body = e := by
  have hrule : ∀ record ∈ document, g.ruleOf? record.name = some record.body :=
    fun record hrecord => ruleOf?_eq_some_iff.2 (hg.rule record hrecord)
  constructor
  · intro h
    obtain ⟨nt, rule, hname, howned, _⟩ := ruleOf?_eq_some_iff.1 h
    obtain ⟨record, hrecord, hsame⟩ := hg.record howned
    rw [hname] at hsame
    cases hsame
    rw [hrule record hrecord] at h
    cases h
    exact ⟨record, hrecord, rfl, rfl⟩
  · rintro ⟨record, hrecord, rfl, rfl⟩
    exact hrule record hrecord

/-! ### Legible rules -/

theorem legible_named (hg : g.Readable) {t : Rule} (ht : g.Covers t) : (g.named t).Legible := by
  have hmem : ∀ {s : SymbolTable} {i : Nat}, i < s.size → (s.name? i).getD "?" ∈ s.names := by
    intro s i hi
    obtain ⟨name, hname⟩ := exists_name?_of_lt hi
    rw [hname]
    exact mem_names_of_name? hname
  induction t with
  | terminal t => exact hg.terminals _ (hmem ht)
  | semantic s => exact hg.semantics _ (hmem ht)
  | reference nt opened => exact hg.nonterminals _ (hmem ht)
  | seq l r ihl ihr | alt l r ihl ihr | iter l r ihl ihr => exact ⟨ihl ht.1, ihr ht.2⟩

/-! ### Tokens of the document -/

def recordTokens (name : String) (e : Expr) : List (Kind × String) :=
  (.ident, name) :: (.colon, ":") :: (e.tokens ++ [(.dot, ".")])

theorem lexes_endMark : Lexes (endMark ++ "\n").toList [(.finish, endMark)] := by
  have hline : Lexes ['\n'] [] := Lexes.white (by decide +kernel) Lexes.nil
  have hread : Token.lexeme 'E' "OGram!\n".toList
      = .read .finish "EOGram!".toList ['\n'] := by decide +kernel
  exact Lexes.token (by decide +kernel) (by decide) hread hline

theorem lexes_record (hname : Token.IsIdentifier (g.nonterminalName nt))
    (hrule : (g.named rule).Legible) {cs : List Char} {es : List (Kind × String)} (h : Lexes cs es) :
    Lexes ((g.record nt rule).toList ++ cs)
      (recordTokens (g.nonterminalName nt) (g.named rule) ++ es) := by
  have hdot : Lexes (' ' :: '.' :: '\n' :: cs) ((.dot, ".") :: es) :=
    Lexes.white Tree.isWhiteSpace_space (Lexes.sign rfl (Lexes.white (by decide +kernel) h))
  have hbody := Tree.lexes_text hrule (Token.parted_space _) hdot
  have hcolon : Lexes (' ' :: ':' :: ' ' :: _) ((.colon, ":") :: _) :=
    Lexes.white Tree.isWhiteSpace_space (Lexes.sign rfl (Lexes.white Tree.isWhiteSpace_space hbody))
  have hlex := Lexes.name hname (Token.parted_space _) hcolon
  have htext : (g.record nt rule).toList ++ cs = (g.nonterminalName nt).toList ++
      (' ' :: ':' :: ' ' :: ((g.named rule).text.toList ++ ' ' :: '.' :: '\n' :: cs)) := by
    simp [record, ruleText, String.toList_append]
  have htokens : recordTokens (g.nonterminalName nt) (g.named rule) ++ es
      = (.ident, g.nonterminalName nt) :: (.colon, ":") ::
          ((g.named rule).tokens ++ (.dot, ".") :: es) := by
    simp [recordTokens]
  rw [htext, htokens]
  exact hlex

/-- The tokens of the document of a grammar. -/
theorem lexes_toText (hg : g.WellFormed) (hr : g.Readable) : Lexes g.toText.toList
    (g.ownedRules.flatMap (fun item => recordTokens (g.nonterminalName item.1) (g.named item.2))
      ++ [(.finish, endMark)]) := by
  have hall : ∀ items : List (Nat × Rule), (∀ item ∈ items, item ∈ g.ownedRules) →
      Lexes ((items.flatMap fun item => (g.record item.1 item.2).toList) ++ (endMark ++ "\n").toList)
        (items.flatMap (fun item => recordTokens (g.nonterminalName item.1) (g.named item.2))
          ++ [(.finish, endMark)]) := by
    intro items
    induction items with
    | nil =>
        intro _
        exact lexes_endMark
    | cons item items ih =>
        intro hitems
        obtain ⟨hnt, hrule⟩ := mem_ownedRules.1 (hitems item (List.mem_cons_self ..))
        have hname := hr.nonterminals _ (mem_names_of_name? (name?_eq_nonterminalName hnt))
        have hrest := ih fun other hother => hitems other (List.mem_cons_of_mem _ hother)
        rw [List.flatMap_cons, List.flatMap_cons, List.append_assoc, List.append_assoc]
        exact lexes_record hname (legible_named hr (hg.covered hrule)) hrest
  have htext : g.toText.toList
      = (g.ownedRules.flatMap fun item => (g.record item.1 item.2).toList) ++
          (endMark ++ "\n").toList := by
    rw [toText, String.append_assoc, String.toList_append, String.toList_join, List.flatMap_map]
  rw [htext]
  exact hall g.ownedRules fun _ h => h

/-! ### Records of the document -/

theorem exists_recordPhrase {ts : List Token} (hts : ts.map essence = recordTokens name e) :
    ∃ span, RecordPhrase ts ⟨name, span, e.leftNested⟩ := by
  obtain ⟨first, rest, rfl, hfirst, hrest⟩ := List.map_eq_cons_iff.1 hts
  obtain ⟨colon, rest, rfl, hcolon, hrest⟩ := List.map_eq_cons_iff.1 hrest
  obtain ⟨body, last, rfl, hbody, hlast⟩ := List.map_eq_append_iff.1 hrest
  obtain ⟨dot, others, rfl, hdot, hothers⟩ := List.map_eq_cons_iff.1 hlast
  rw [List.map_eq_nil_iff.1 hothers]
  have hphrase : RecordPhrase (first :: colon :: body ++ [dot]) ⟨first.text, first.span, _⟩ :=
    .intro (congrArg Prod.fst hfirst) (congrArg Prod.fst hcolon)
      (Tree.phraseOf_tokens e body hbody).alternative (congrArg Prod.fst hdot)
  rw [show first.text = name from congrArg Prod.snd hfirst] at hphrase
  exact ⟨first.span, hphrase⟩

def entryOf (record : Record) : String × Expr := (record.name, record.body)

theorem map_name_eq {items : List (String × Expr)}
    (h : document.map entryOf = items.map fun item => (item.1, item.2.leftNested)) :
    document.map Record.name = items.map Prod.fst := by
  have hfst := congrArg (List.map Prod.fst) h
  rw [List.map_map, List.map_map] at hfst
  exact hfst

/-- Tokens of records form a document with their names and rules. -/
theorem exists_documentPhrase (items : List (String × Expr)) : ∀ {ts : List Token},
    ts.map essence = items.flatMap (fun item => recordTokens item.1 item.2) ++ [(.finish, endMark)] →
      ∃ document, DocumentPhrase ts document ∧
        document.map entryOf = items.map fun item => (item.1, item.2.leftNested) := by
  induction items with
  | nil =>
      intro ts hts
      obtain ⟨t, others, rfl, ht, hothers⟩ := List.map_eq_cons_iff.1 hts
      rw [List.map_eq_nil_iff.1 hothers]
      exact ⟨[], .finish (congrArg Prod.fst ht), rfl⟩
  | cons item items ih =>
      intro ts hts
      rw [List.flatMap_cons, List.append_assoc] at hts
      obtain ⟨us, vs, rfl, hus, hvs⟩ := List.map_eq_append_iff.1 hts
      obtain ⟨span, hrecord⟩ := exists_recordPhrase hus
      obtain ⟨document, hdocument, hentries⟩ := ih hvs
      refine ⟨_, .cons hrecord hdocument, ?_⟩
      rw [List.map_cons, List.map_cons, hentries]
      rfl

def entries (g : Grammar) : List (String × Expr) :=
  g.ownedRules.map fun item => (g.nonterminalName item.1, g.named item.2)

theorem exists_read_toText (hg : g.WellFormed) (hr : g.Readable) :
    ∃ document, Document.read g.toText = .ok document ∧
      document.map entryOf = g.entries.map fun item => (item.1, item.2.leftNested) := by
  obtain ⟨htokens, hfault⟩ := lexes_toText hg hr 0
  rw [show g.ownedRules.flatMap (fun item => recordTokens (g.nonterminalName item.1) (g.named item.2))
    = g.entries.flatMap fun item => recordTokens item.1 item.2 by
      rw [entries, List.flatMap_map]] at htokens
  obtain ⟨document, hphrase, hentries⟩ := exists_documentPhrase g.entries htokens
  exact ⟨document, Reader.read_of_documentPhrase hfault hphrase, hentries⟩

/-! ### The grammar that is read back -/

theorem mem_entries (hg : g.WellFormed) : (name, e) ∈ g.entries ↔ g.ruleOf? name = some e := by
  rw [ruleOf?_eq_some_iff]
  unfold entries
  simp only [List.mem_map, Prod.mk.injEq, Prod.exists, mem_ownedRules]
  constructor
  · rintro ⟨nt, rule, ⟨hnt, hrule⟩, rfl, rfl⟩
    exact ⟨nt, rule, name?_eq_nonterminalName hnt, hrule, rfl⟩
  · rintro ⟨nt, rule, hname, hrule, rfl⟩
    exact ⟨nt, rule, ⟨hg.owned hrule, hrule⟩, nonterminalName_eq_of_name? hname, rfl⟩

/-- No name is written twice. -/
theorem nodup_entries (g : Grammar) : (g.entries.map Prod.fst).Nodup := by
  have hids : (g.ownedRules.map Prod.fst).Nodup := by
    have hsub : (g.ownedRules.map Prod.fst).Sublist g.nonterminals.ids := by
      unfold ownedRules
      induction g.nonterminals.ids with
      | nil => exact .slnil
      | cons nt ids ih =>
          rw [List.filterMap_cons]
          cases g.rule? nt with
          | none => exact ih.cons nt
          | some rule => exact ih.cons_cons nt
    exact hsub.nodup List.nodup_range
  have hmap : g.entries.map Prod.fst = (g.ownedRules.map Prod.fst).map g.nonterminalName := by
    simp [entries, Function.comp_def]
  rw [hmap]
  refine hids.map_on fun i hi j hj hij => ?_
  obtain ⟨⟨_, rule⟩, hmem, rfl⟩ := List.mem_map.1 hi
  obtain ⟨⟨_, rule'⟩, hmem', rfl⟩ := List.mem_map.1 hj
  exact name?_of_getD_eq (mem_ownedRules.1 hmem).1 (mem_ownedRules.1 hmem').1 hij

/-- The first name that is written is that of the first nonterminal with a rule. -/
theorem head?_entries (hfirst : g.rule? 0 = some rule) (hpos : 0 < g.nonterminals.size) :
    g.entries.head? = some (g.nonterminalName 0, g.named rule) := by
  rw [entries, List.head?_map, head?_ownedRules hfirst hpos]
  rfl

/-- **Reading undoes writing.**  The document of a grammar is read, and the grammar that is built from
it gives each name the rule that it had, with chains nested to the left. -/
theorem exists_build_toText (hg : g.WellFormed) (hr : g.Readable) :
    ∃ g', build g.toText = .ok g' ∧ g'.WellFormed ∧ g'.Readable ∧
      (∀ name, g'.ruleOf? name = (g.ruleOf? name).map Tree.leftNested) ∧
      ∀ rule, g.rule? 0 = some rule → g'.nonterminals.name? 0 = g.nonterminals.name? 0 := by
  obtain ⟨document, hread, hentries⟩ := exists_read_toText hg hr
  have hnames : document.map Record.name = g.entries.map Prod.fst := map_name_eq hentries
  obtain ⟨g', hbuilt⟩ : ∃ g', ofDocument document = .ok g' :=
    exists_ofDocument (by rw [hnames]; exact g.nodup_entries)
  have hbuild : build g.toText = .ok g' := by
    rw [build, hread]
    exact hbuilt
  have hholds := holds_of_ofDocument hbuilt
  refine ⟨g', hbuild, hholds.toWellFormed, (holds_of_build hbuild).1, fun name => ?_, fun rule hrule => ?_⟩
  · refine Option.ext fun e => ?_
    rw [hholds.ruleOf?_iff, Option.map_eq_some_iff]
    have hmem : (∃ record ∈ document, record.name = name ∧ record.body = e)
        ↔ (name, e) ∈ document.map entryOf := by
      simp only [List.mem_map, entryOf, Prod.mk.injEq]
    rw [hmem, hentries]
    simp only [List.mem_map, Prod.exists, mem_entries hg, Prod.mk.injEq]
    constructor
    · rintro ⟨_, f, hf, rfl, rfl⟩
      exact ⟨f, hf, rfl⟩
    · rintro ⟨f, hf, rfl⟩
      exact ⟨name, f, hf, rfl, rfl⟩
  · have hpos := hg.owned hrule
    have hhead : document.head?.map Record.name = some (g.nonterminalName 0) := by
      rw [← List.head?_map, hnames, List.head?_map, head?_entries hrule hpos]
      rfl
    rw [hholds.first, hhead, name?_eq_nonterminalName hpos]

end RuleGrammar.Grammar
