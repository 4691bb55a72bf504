import Mathlib.Logic.Function.Iterate
import RuleGrammar.Proofs.Numbering
import RuleGrammar.Proofs.TreeText

/-!
# The order of the records of a document

Names are numbered as they come up, and records are written in the order of the numbers of their names.
So the document of a grammar, when it is read and written again, has the same lines, but not always in the
same order: a name can come up in an earlier line than in the text from which the grammar was read.  Each
reading puts the names of the records into the order in which they come up for the first time, and with
each reading the lines at the beginning that no longer change are one more.

* `owners g`, `lines g`: the names that own rules and the lines of their records, as they are written.
* `arranged g names`: the owners in the order in which they come up in records of these names.
* `InOrder g`: the owners come up in the document in the order of its lines.
* `exists_longer_front`: two arrangements in a row share more than the two before them.
* `reread g`: the grammar that is read from the document of a grammar; `owners_reread`, `lines_reread`.
* `rereading_arranges_lines`: what becomes of a document that is read and written again and again.
-/

namespace RuleGrammar

namespace Tree

variable {α : Type}

theorem mentions_seqOnto (l r : Tree α) : (seqOnto l r).mentions = l.mentions ++ r.mentions := by
  induction r with
  | seq m r ihm _ => rw [seqOnto, mentions, mentions, ihm, List.append_assoc]
  | _ => rfl

theorem mentions_altOnto (l r : Tree α) : (altOnto l r).mentions = l.mentions ++ r.mentions := by
  induction r with
  | alt m r ihm _ => rw [altOnto, mentions, mentions, ihm, List.append_assoc]
  | _ => rfl

theorem mentions_leftNested (t : Tree α) : t.leftNested.mentions = t.mentions := by
  induction t with
  | seq l r ihl ihr => rw [leftNested, mentions_seqOnto, ihl, ihr, mentions]
  | alt l r ihl ihr => rw [leftNested, mentions_altOnto, ihl, ihr, mentions]
  | iter l r ihl ihr => rw [leftNested, mentions, ihl, ihr, mentions]
  | _ => rfl

theorem references_leftNested (t : Tree α) : t.leftNested.references = t.references := by
  rw [references, mentions_leftNested, references]

end Tree

namespace Grammar

open SymbolTable

variable {g g' : Grammar} {names p : List String} {name text : String} {document : Document}

/-! ### Owners and lines -/

/-- The names that own rules, in the order in which their records are written. -/
def owners (g : Grammar) : List String := g.entries.map Prod.fst

def lines (g : Grammar) : List String := g.ownedRules.map fun item => g.record item.1 item.2

/-- The nonterminals in the rule of a name, left to right. -/
def uses (g : Grammar) (name : String) : List String := ((g.ruleOf? name).map Tree.references).getD []

def lineOf (g : Grammar) (name : String) : String :=
  name ++ " : " ++ ((g.ruleOf? name).map Tree.text).getD "" ++ " .\n"

theorem toText_eq_lines (g : Grammar) : g.toText = String.join g.lines ++ endMark ++ "\n" := rfl

theorem owners_eq_map (g : Grammar) :
    g.owners = (g.ownedRules.map Prod.fst).map g.nonterminalName := by
  simp [owners, entries, Function.comp_def]

theorem nodup_owners (g : Grammar) : g.owners.Nodup := g.nodup_entries

theorem mem_owners (hg : g.WellFormed) : name ∈ g.owners ↔ ∃ e, g.ruleOf? name = some e := by
  simp only [owners, List.mem_map, Prod.exists, mem_entries hg, exists_and_right, exists_eq_right]

/-- The lines follow from the names that own rules and the rules of names. -/
theorem lines_eq_map (g : Grammar) : g.lines = g.owners.map g.lineOf := by
  rw [owners_eq_map, List.map_map, List.map_map]
  refine List.map_congr_left fun item hitem => ?_
  obtain ⟨hnt, hrule⟩ := mem_ownedRules.1 hitem
  have hnamed : g.ruleOf? (g.nonterminalName item.1) = some (g.named item.2) :=
    ruleOf?_eq_some_iff.2 ⟨item.1, item.2, name?_eq_nonterminalName hnt, hrule, rfl⟩
  show g.record item.1 item.2 = g.lineOf (g.nonterminalName item.1)
  rw [lineOf, hnamed]
  rfl

/-- Documents that are equal have the same owners in the same order. -/
theorem owners_eq_of_toText_eq (hg : g.Orderly) (hg' : g'.Orderly) (h : g.toText = g'.toText) :
    g.owners = g'.owners := by
  obtain ⟨document, hread, hentries⟩ := exists_read_toText hg.toWellFormed hg.readable
  obtain ⟨document', hread', hentries'⟩ := exists_read_toText hg'.toWellFormed hg'.readable
  rw [h, hread'] at hread
  cases hread
  exact (map_name_eq hentries).symm.trans (map_name_eq hentries')

/-! ### The order in which names come up -/

/-- The names that own rules in the order in which they come up for the first time, where records of the
given names are gone through: each name comes before those in its rule. -/
def arranged (g : Grammar) (names : List String) : List String :=
  (names.flatMap fun name => name :: g.uses name).eraseDups.filter fun name => g.owners.contains name

theorem mem_arranged (hname : name ∈ g.owners) (hmem : name ∈ names) : name ∈ g.arranged names := by
  refine List.mem_filter.2 ⟨List.mem_eraseDups.2 ?_, by simpa using hname⟩
  exact List.mem_flatMap.2 ⟨name, hmem, List.mem_cons_self⟩

/-- What comes up in the first records is not changed by further ones. -/
theorem arranged_mono (h : p <+: names) : g.arranged p <+: g.arranged names := by
  obtain ⟨rest, rfl⟩ := h
  unfold arranged
  rw [List.flatMap_append, List.eraseDups_append, List.filter_append]
  exact List.prefix_append _ _

/-- If nothing but the names of the first records comes up in them, the name of the next record comes up
next. -/
theorem prefix_arranged_concat (hp : g.arranged p = p) (hname : name ∈ g.owners) (hnew : name ∉ p) :
    p ++ [name] <+: g.arranged (p ++ [name]) := by
  have hunseen : name ∉ p.flatMap fun name => name :: g.uses name := by
    intro hseen
    refine hnew (hp ▸ List.mem_filter.2 ⟨List.mem_eraseDups.2 hseen, ?_⟩)
    simpa using hname
  have hfirst : ((name :: g.uses name).removeAll (p.flatMap fun name => name :: g.uses name))
      = name :: (g.uses name).removeAll (p.flatMap fun name => name :: g.uses name) := by
    rw [List.removeAll, List.removeAll, List.filter_cons_of_pos]
    simpa using hunseen
  have hsplit : ∃ rest, g.arranged (p ++ [name]) = g.arranged p ++ name :: rest := by
    rw [arranged, List.flatMap_append, List.flatMap_singleton, List.eraseDups_append, hfirst,
      List.eraseDups_cons, List.filter_append, List.filter_cons_of_pos (by simpa using hname)]
    exact ⟨_, rfl⟩
  obtain ⟨rest, hrest⟩ := hsplit
  rw [hrest, hp]
  exact ⟨rest, by rw [List.append_assoc, List.singleton_append]⟩

/-- The first record comes first. -/
theorem prefix_arranged_cons (hname : name ∈ g.owners) (rest : List String) :
    [name] <+: g.arranged (name :: rest) :=
  (prefix_arranged_concat (p := []) rfl hname List.not_mem_nil).trans (arranged_mono ⟨rest, rfl⟩)

/-- **Two arrangements in a row share more than the two before them.**  Either more names come up in the
records that are shared, or the next record is shared as well. -/
theorem exists_longer_front (hperm : names.Perm g.owners) (hp : p <+: names)
    (hp' : p <+: g.arranged names) (hlt : p.length < names.length) :
    ∃ q, q <+: g.arranged names ∧ q <+: g.arranged (g.arranged names) ∧ p.length < q.length := by
  have hnodup : names.Nodup := hperm.nodup_iff.2 g.nodup_owners
  have hle : p.length ≤ (g.arranged p).length := by
    refine ((hp.nodup hnodup).subperm fun name hname => ?_).length_le
    exact mem_arranged (hperm.subset (hp.subset hname)) hname
  by_cases hlonger : p.length < (g.arranged p).length
  · exact ⟨g.arranged p, arranged_mono hp, arranged_mono hp', hlonger⟩
  · have hshort : p <+: g.arranged p := List.prefix_of_prefix_length_le hp' (arranged_mono hp) hle
    have hsame : g.arranged p = p := (hshort.eq_of_length (by omega)).symm
    obtain ⟨rest, rfl⟩ := hp
    cases rest with
    | nil => simp at hlt
    | cons name rest =>
        have hnew : name ∉ p := fun hmem =>
          (List.nodup_append.1 hnodup).2.2 name hmem name List.mem_cons_self rfl
        have hnext := prefix_arranged_concat hsame (hperm.subset (by simp)) hnew
        have hhead : p ++ [name] <+: p ++ name :: rest := ⟨rest, by simp⟩
        refine ⟨g.arranged (p ++ [name]), arranged_mono hhead,
          arranged_mono (hnext.trans (arranged_mono hhead)), ?_⟩
        have hlength := hnext.length_le
        rw [List.length_append, List.length_singleton] at hlength
        exact hlength

/-- What two arrangements in a row share grows by one name with each of them: by induction on the number
of arrangements. -/
theorem exists_front_of_arranged (hperm : ∀ k, (g.arranged^[k] names).Perm g.owners) :
    ∀ k, ∃ p, p <+: g.arranged^[k] names ∧ p <+: g.arranged^[k + 1] names ∧
      min (k + 1) g.owners.length ≤ p.length := by
  intro k
  induction k with
  | zero =>
      have hfirst : names.Perm g.owners := hperm 0
      cases names with
      | nil => exact ⟨[], List.nil_prefix, List.nil_prefix, by simp [← hfirst.length_eq]⟩
      | cons name rest =>
          have howner : name ∈ g.owners := hfirst.subset List.mem_cons_self
          exact ⟨[name], ⟨rest, rfl⟩, prefix_arranged_cons howner rest, Nat.min_le_left _ _⟩
  | succ k ih =>
      obtain ⟨p, hp, hp', hmin⟩ := ih
      have hlength := (hperm k).length_eq
      have hlength' := (hperm (k + 1)).length_eq
      rw [Function.iterate_succ_apply' _ (k + 1)]
      rw [Function.iterate_succ_apply'] at hp' hlength' ⊢
      by_cases hlt : p.length < (g.arranged^[k] names).length
      · obtain ⟨q, hq, hq', hlonger⟩ := exists_longer_front (hperm k) hp hp' hlt
        exact ⟨q, hq, hq', by omega⟩
      · -- All names are shared already, so the arrangement is the one before.
        have hall := hp.eq_of_length (Nat.le_antisymm hp.length_le (by omega))
        have hall' := hp'.eq_of_length (by rw [hall, hlength, hlength'])
        refine ⟨p, hp', ?_, by rw [hall, hlength]; exact Nat.min_le_right _ _⟩
        rw [← hall', hall, ← hall', hall]

/-- Arrangements come to rest when there are as many of them as names, but for two: the first name and
the last one are shared anyway. -/
theorem iterate_arranged_eq (hperm : ∀ k, (g.arranged^[k] names).Perm g.owners) {k : ℕ}
    (hk : g.owners.length ≤ k + 2) : g.arranged^[k + 1] names = g.arranged^[k] names := by
  obtain ⟨p, ⟨rest, hrest⟩, ⟨rest', hrest'⟩, hmin⟩ := exists_front_of_arranged hperm k
  have hlength := (hperm k).length_eq
  have hboth := (hperm (k + 1)).trans (hperm k).symm
  rw [← hrest, ← hrest'] at hboth
  have hrests : rest'.Perm rest := (List.perm_append_left_iff p).1 hboth
  rw [← hrest, List.length_append] at hlength
  have hsame : rest' = rest := by
    match rest, hrests, hlength with
    | [], hrests, _ => exact hrests.eq_nil
    | [name], hrests, _ => exact List.perm_singleton.1 hrests
    | _ :: _ :: _, _, hlength =>
        simp only [List.length_cons] at hlength
        omega
  rw [← hrest, ← hrest', hsame]

/-! ### Reading -/

theorem map_nonterminalName_ids (g : Grammar) :
    g.nonterminals.ids.map g.nonterminalName = g.nonterminals.names.toList := by
  refine List.ext_getElem? fun i => ?_
  have hname : g.nonterminals.names.toList[i]? = g.nonterminals.name? i := Array.getElem?_toList
  rw [List.getElem?_map, hname, ids]
  by_cases hi : i < g.nonterminals.size
  · rw [List.getElem?_range hi, name?_eq_nonterminalName hi]
    rfl
  · rw [List.getElem?_eq_none (by simpa using hi), SymbolTable.name?,
      Array.getElem?_eq_none (Nat.le_of_not_lt hi)]
    rfl

/-- **Records are written in the order in which their names came up** when the grammar was read. -/
theorem owners_of_ofDocument (h : ofDocument document = .ok g) :
    (document.map Record.name).Perm g.owners ∧ g.owners = g.arranged (document.map Record.name) := by
  have hholds := holds_of_ofDocument h
  have hg := hholds.toWellFormed
  have hmem : ∀ name, name ∈ document.map Record.name ↔ name ∈ g.owners := by
    intro name
    rw [mem_owners hg]
    simp only [hholds.ruleOf?_iff, List.mem_map]
    constructor
    · rintro ⟨record, hrecord, rfl⟩
      exact ⟨_, record, hrecord, rfl, rfl⟩
    · rintro ⟨_, record, hrecord, hname, _⟩
      exact ⟨record, hrecord, hname⟩
  have hnames : document.nonterminals
      = (document.map Record.name).flatMap fun name => name :: g.uses name := by
    rw [Document.nonterminals, List.flatMap_map]
    refine List.flatMap_congr fun record hrecord => ?_
    rw [uses, hholds.ruleOf?_iff.2 ⟨record, hrecord, rfl, rfl⟩]
    rfl
  have howned : ∀ nt ∈ g.nonterminals.ids,
      g.hasRule nt = g.owners.contains (g.nonterminalName nt) := by
    intro nt hnt
    have hname := name?_eq_nonterminalName (List.mem_range.1 hnt)
    have hrule : g.ruleOf? (g.nonterminalName nt) = (g.rule? nt).map g.named := by
      rw [ruleOf?, id?_eq_some_iff.2 hname]
      rfl
    rw [Bool.eq_iff_iff, List.contains_iff_mem, mem_owners hg, hrule, hasRule, ← Option.isSome_iff_exists,
      Option.isSome_map]
  refine ⟨(List.perm_ext_iff_of_nodup (nodup_of_ofDocument h) g.nodup_owners).2 hmem, ?_⟩
  calc g.owners = (g.nonterminals.ids.filter g.hasRule).map g.nonterminalName := by
        rw [owners_eq_map, map_fst_ownedRules]
    _ = (g.nonterminals.ids.map g.nonterminalName).filter fun name => g.owners.contains name := by
        rw [List.filter_map]
        exact congrArg _ (List.filter_congr howned)
    _ = g.arranged (document.map Record.name) := by
        rw [map_nonterminalName_ids, (describes_of_ofDocument h).nonterminals, hnames, arranged]

/-- The grammar that is read from the document of a grammar. -/
def reread (g : Grammar) : Grammar := (build g.toText).toOption.getD g

/-- What reading the document of a grammar comes to. -/
theorem build_toText_eq_reread (hg : g.Orderly) : build g.toText = .ok g.reread ∧ g.reread.Orderly ∧
    ∀ name, g.reread.ruleOf? name = (g.ruleOf? name).map Tree.leftNested := by
  obtain ⟨g', hbuild, _, _, hrules, _⟩ := exists_build_toText hg.toWellFormed hg.readable
  have hreread : g.reread = g' := by rw [reread, hbuild]; rfl
  rw [hreread]
  exact ⟨hbuild, orderly_of_build hbuild, hrules⟩

theorem lineOf_reread (hg : g.Orderly) : g.reread.lineOf = g.lineOf := by
  funext name
  rw [lineOf, lineOf, (build_toText_eq_reread hg).2.2, Option.map_map]
  refine congrArg (fun rule : Option String => name ++ " : " ++ rule.getD "" ++ " .\n") ?_
  exact congrArg (Option.map · _) (funext Tree.text_leftNested)

/-- The owners are the same, and they come up in the same way. -/
theorem arranged_reread (hg : g.Orderly) : g.reread.arranged = g.arranged := by
  obtain ⟨_, hg', hrules⟩ := build_toText_eq_reread hg
  have huses : g.reread.uses = g.uses := by
    funext name
    rw [uses, uses, hrules, Option.map_map]
    exact congrArg (fun f => ((g.ruleOf? name).map f).getD []) (funext Tree.references_leftNested)
  have howners : ∀ name, g.reread.owners.contains name = g.owners.contains name := by
    intro name
    rw [Bool.eq_iff_iff, List.contains_iff_mem, List.contains_iff_mem, mem_owners hg'.toWellFormed,
      mem_owners hg.toWellFormed, hrules]
    simp
  funext names
  rw [arranged, arranged, huses]
  simp only [howners]

/-- **Reading the document of a grammar arranges its owners.** -/
theorem owners_reread (hg : g.Orderly) :
    g.reread.owners.Perm g.owners ∧ g.reread.owners = g.arranged g.owners := by
  obtain ⟨document, hread, hentries⟩ := exists_read_toText hg.toWellFormed hg.readable
  have hnames : document.map Record.name = g.owners := map_name_eq hentries
  obtain ⟨document', hread', hdocument⟩ := build_eq_ok_iff.1 (build_toText_eq_reread hg).1
  rw [hread] at hread'
  cases hread'
  obtain ⟨hperm, harranged⟩ := owners_of_ofDocument hdocument
  rw [hnames] at hperm harranged
  rw [arranged_reread hg] at harranged
  exact ⟨hperm.symm, harranged⟩

/-- The lines of the document that is written again are the same, in the order of the arranged names. -/
theorem lines_reread (hg : g.Orderly) : g.reread.lines = (g.arranged g.owners).map g.lineOf := by
  rw [lines_eq_map, (owners_reread hg).2, lineOf_reread hg]

theorem head?_lines_reread (hg : g.Orderly) : g.reread.lines.head? = g.lines.head? := by
  rw [lines_reread hg, lines_eq_map, List.head?_map, List.head?_map]
  refine congrArg (Option.map g.lineOf) ?_
  cases howners : g.owners with
  | nil => rfl
  | cons name rest =>
      have hfirst := prefix_arranged_cons (g := g) (by rw [howners]; exact List.mem_cons_self) rest
      obtain ⟨others, hothers⟩ := hfirst
      rw [← hothers]
      rfl

/-! ### Documents that stay as they are -/

/-- The names of the records come up for the first time in the document in the order of its lines. -/
def InOrder (g : Grammar) : Prop := g.arranged g.owners = g.owners

instance decidableInOrder (g : Grammar) : Decidable g.InOrder :=
  inferInstanceAs (Decidable (g.arranged g.owners = g.owners))

theorem toText_reread_of_inOrder (hg : g.Orderly) (h : g.InOrder) : g.reread.toText = g.toText := by
  rw [toText_eq_lines, toText_eq_lines, lines_reread hg, show g.arranged g.owners = g.owners from h,
    lines_eq_map]

theorem toText_reread_eq_iff (hg : g.Orderly) : g.reread.toText = g.toText ↔ g.InOrder := by
  constructor
  · intro htext
    have howners := owners_eq_of_toText_eq (build_toText_eq_reread hg).2.1 hg htext
    rwa [(owners_reread hg).2] at howners
  · exact toText_reread_of_inOrder hg

/-- What is read again and again, with the order of its records. -/
theorem orderly_iterate_reread (hg : g.Orderly) : ∀ k, (reread^[k] g).Orderly ∧
    (reread^[k] g).arranged = g.arranged ∧ (reread^[k] g).owners.Perm g.owners := by
  intro k
  induction k with
  | zero => exact ⟨hg, rfl, .refl _⟩
  | succ k ih =>
      obtain ⟨hk, harranged, hperm⟩ := ih
      rw [Function.iterate_succ_apply']
      exact ⟨(build_toText_eq_reread hk).2.1, (arranged_reread hk).trans harranged,
        (owners_reread hk).1.trans hperm⟩

/-- **After some readings a document stays as it is**, and the number of records tells how many it takes:
the names of the records of the text are arranged once more by each reading. -/
theorem toText_iterate_reread (h : build text = .ok g) {k : ℕ} (hk : g.owners.length ≤ k + 3) :
    (reread^[k + 1] g).toText = (reread^[k] g).toText := by
  have hg := orderly_iterate_reread (orderly_of_build h)
  obtain ⟨document, _, hdocument⟩ := build_eq_ok_iff.1 h
  obtain ⟨hperm, hfirst⟩ := owners_of_ofDocument hdocument
  have howners : ∀ k, (reread^[k] g).owners = g.arranged^[k + 1] (document.map Record.name) := by
    intro k
    induction k with
    | zero => exact hfirst
    | succ k ih =>
        rw [Function.iterate_succ_apply' reread, (owners_reread (hg k).1).2, (hg k).2.1, ih,
          ← Function.iterate_succ_apply' g.arranged]
  have hperms : ∀ k, (g.arranged^[k] (document.map Record.name)).Perm g.owners := by
    intro k
    cases k with
    | zero => exact hperm
    | succ k => exact howners k ▸ (hg k).2.2
  rw [Function.iterate_succ_apply']
  refine toText_reread_of_inOrder (hg k).1 ?_
  rw [InOrder, (hg k).2.1, howners, ← Function.iterate_succ_apply' g.arranged]
  exact iterate_arranged_eq hperms hk

/-- **A document that is read and written again keeps its lines, in the order in which their names come
up in it.**  For every grammar that is read from a text: its document is read, and what is written then
has the same lines, the first one first.  It is the same document if and only if the names of its records
come up in it in the order of its lines, and so it is if the document keeps the records of the text in
their order.  When it is read and written again and again, it stays as it is from the reading on whose
number is three less than that of the records. -/
theorem rereading_arranges_lines (h : build text = .ok g) :
    (build g.toText = .ok g.reread ∧ g.reread.lines = (g.arranged g.owners).map g.lineOf ∧
      g.reread.lines.Perm g.lines ∧ g.reread.lines.head? = g.lines.head?) ∧
    (g.reread.toText = g.toText ↔ g.InOrder) ∧
    (∀ document, Document.read text = .ok document → document.map Record.name = g.owners →
      g.InOrder) ∧
    ∀ k, build (reread^[k] g).toText = .ok (reread^[k + 1] g) ∧
      (g.lines.length ≤ k + 3 → (reread^[k + 1] g).toText = (reread^[k] g).toText) := by
  have hg := orderly_of_build h
  have hperm : g.reread.lines.Perm g.lines := by
    rw [lines_reread hg, ← (owners_reread hg).2, lines_eq_map g]
    exact (owners_reread hg).1.map g.lineOf
  refine ⟨⟨(build_toText_eq_reread hg).1, lines_reread hg, hperm, head?_lines_reread hg⟩,
    toText_reread_eq_iff hg, fun document hread hkept => ?_, fun k => ⟨?_, fun hk => ?_⟩⟩
  · obtain ⟨document', hread', hdocument⟩ := build_eq_ok_iff.1 h
    rw [hread] at hread'
    cases hread'
    have howners := (owners_of_ofDocument hdocument).2
    rw [hkept] at howners
    exact howners.symm
  · rw [Function.iterate_succ_apply']
    exact (build_toText_eq_reread (orderly_iterate_reread hg k).1).1
  · refine toText_iterate_reread h ?_
    rw [lines_eq_map, List.length_map] at hk
    exact hk

/-- Four records, where the second one comes up in the rule of the third one after the fourth. -/
def forwardText : String := "S : A .\nC : 'c' .\nA : B , C .\nB : 'b' .\nEOGram!\n"

def forward : Grammar := (build forwardText).toOption.getD Grammar.empty

theorem build_forwardText : build forwardText = .ok forward :=
  build_eq_ok_of_toOption (by decide +kernel)

/-- The document of the four records is changed by the first reading only; that of the mixed text is
not. -/
theorem rereading_arranges_lines_forward :
    build forwardText = .ok forward ∧ forward.owners = ["S", "A", "C", "B"] ∧
      forward.reread.owners = ["S", "A", "B", "C"] ∧ forward.reread.lines.Perm forward.lines ∧
      forward.reread.toText ≠ forward.toText ∧
      (∀ k, 1 ≤ k → (reread^[k + 1] forward).toText = (reread^[k] forward).toText) ∧
      build mixedText = .ok mixed ∧ mixed.reread.toText = mixed.toText := by
  obtain ⟨⟨-, -, hperm, -⟩, hiff, -, hruns⟩ := rereading_arranges_lines build_forwardText
  have hlength : forward.lines.length = 4 := by decide +kernel
  have hmoved : ¬ forward.InOrder := by decide +kernel
  have hkept : mixed.InOrder := by decide +kernel
  refine ⟨build_forwardText, by decide +kernel, by decide +kernel, hperm,
    fun htext => hmoved (hiff.1 htext), fun k hk => (hruns k).2 (by omega), build_mixedText, ?_⟩
  exact (rereading_arranges_lines build_mixedText).2.1.2 hkept

/-- **Reading and writing again can change a document.** -/
theorem toText_reread_forward_ne :
    build forwardText = .ok forward ∧
      forward.toText = "S : A .\nA : B , C .\nC : 'c' .\nB : 'b' .\nEOGram!\n" ∧
      forward.reread.toText = "S : A .\nA : B , C .\nB : 'b' .\nC : 'c' .\nEOGram!\n" ∧
      ¬ ∀ text g, build text = .ok g → ∃ g', build g.toText = .ok g' ∧ g'.toText = g.toText := by
  have hbefore : forward.toText = "S : A .\nA : B , C .\nC : 'c' .\nB : 'b' .\nEOGram!\n" := by
    decide +kernel
  have hafter :
      forward.reread.toText = "S : A .\nA : B , C .\nB : 'b' .\nC : 'c' .\nEOGram!\n" := by
    decide +kernel
  refine ⟨build_forwardText, hbefore, hafter, fun hstable => ?_⟩
  obtain ⟨g', hbuild, htext⟩ := hstable forwardText forward build_forwardText
  have hreread : forward.reread = g' := by rw [reread, hbuild]; rfl
  rw [← hreread, hbefore, hafter] at htext
  exact absurd htext (by decide +kernel)

end Grammar

end RuleGrammar
