import RuleGrammar.Proofs.Location
import RuleGrammar.Proofs.Numbering
import RuleGrammar.Proofs.Viability

/-!
# Faults point at the first offence

A text has at most one fault that is told.  It is the first token that leaves no document possible;
else the place where the lexer stops; else the end of a document that is not complete; else the name of
the first record that repeats an earlier one.  Its span is that of a stretch of the text, and its report
tells the line and the column of that stretch.

* `build_of_not_viable`, `build_of_fault`, `build_of_incomplete`, `build_of_repeated`: the four faults.
* `Fault.Sited`: the span and the report of a fault fit the text.
* `build_tells_first_offence`: which fault a text has, and that it fits the text.
-/

namespace RuleGrammar

/-! ### Reports -/

/-- The span of a fault is a stretch of the text between two characters, and its report gives the line
and the column of the place where the stretch begins. -/
structure Fault.Sited (f : Fault) (text : String) : Prop where
  ordered : f.span.start ≤ f.span.stop
  bounded : f.span.stop ≤ text.utf8ByteSize
  start : String.Pos.Raw.IsValid text ⟨f.span.start⟩
  stop : String.Pos.Raw.IsValid text ⟨f.span.stop⟩
  report : ∃ before after, text = before ++ after ∧ before.utf8ByteSize = f.span.start ∧
    ∀ path : String, f.report path text = f.heading ++ " at " ++ path ++ ":" ++
      Nat.repr (Fault.behind before.toList).1 ++ ":" ++ Nat.repr (Fault.behind before.toList).2 ++ "\n" ++
      "message: " ++ f.message ++ "\n"

theorem Fault.sited_of_covers {f : Fault} {text : String} (h : f.span.Covers 0 text.toList) :
    f.Sited text := by
  obtain ⟨before, middle, after, htext, hspan⟩ := h
  have hstring : text = String.ofList before ++ (String.ofList middle ++ String.ofList after) := by
    rw [← String.ofList_append, ← String.ofList_append, ← htext, String.ofList_toList]
  have hstart : f.span.start = (String.ofList before).utf8ByteSize := by
    rw [Token.utf8ByteSize_ofList, hspan, Nat.zero_add]
  have hstop : f.span.stop = (String.ofList before ++ String.ofList middle).utf8ByteSize := by
    rw [String.utf8ByteSize_append, Token.utf8ByteSize_ofList, Token.utf8ByteSize_ofList, hspan,
      Nat.zero_add]
  refine ⟨?_, ?_, ?_, ?_, ?_⟩
  · rw [hstart, hstop, String.utf8ByteSize_append]
    exact Nat.le_add_right _ _
  · have hwhole := congrArg String.utf8ByteSize (hstring.trans (String.append_assoc ..).symm)
    rw [String.utf8ByteSize_append, ← hstop] at hwhole
    exact hwhole ▸ Nat.le_add_right _ _
  · rw [hstart, Token.utf8ByteSize_ofList]
    exact Token.isValid_of_append htext
  · rw [hstop, ← String.ofList_append, Token.utf8ByteSize_ofList]
    exact Token.isValid_of_append (htext.trans (List.append_assoc ..).symm)
  · refine ⟨_, _, hstring, hstart.symm, fun path => ?_⟩
    rw [Fault.report, hstart, Token.utf8ByteSize_ofList, htext, Fault.position_append,
      String.toList_ofList]

namespace Grammar

open Token (lex)

variable {text : String} {f : Fault}

/-! ### The four faults -/

/-- The first token that leaves no document possible. -/
theorem build_of_not_viable {before after : List Token} {t : Token}
    (htokens : (lex text).tokens = before ++ t :: after) (hbefore : Viable before)
    (ht : ¬ Viable (before ++ [t])) :
    ∃ expected, build text = .error ⟨.unexpected expected (some t), t.span⟩ := by
  obtain ⟨expected, hrun⟩ := Reader.exists_run_eq_error hbefore ht
  refine ⟨expected, ?_⟩
  rw [build, Document.read, Document.ofLexing, htokens, hrun]
  rfl

/-- The place where the lexer stops. -/
theorem build_of_fault (hviable : Viable (lex text).tokens) (hfault : (lex text).fault = some f) :
    build text = .error f := by
  obtain ⟨s, hrun⟩ := Reader.exists_run_iff_viable.2 hviable
  rw [build, Document.read, Document.ofLexing, hrun, hfault]
  rfl

/-- The end of a document that is not complete. -/
theorem build_of_incomplete (hviable : Viable (lex text).tokens) (hfault : (lex text).fault = none)
    (hnone : ∀ d : DocumentTree, d.tokens ≠ (lex text).tokens) :
    ∃ last expected, (lex text).tokens.getLast? = some last ∧
      build text = .error ⟨.unexpected expected none, ⟨last.span.stop, last.span.stop⟩⟩ := by
  obtain ⟨s, hrun⟩ := Reader.exists_run_iff_viable.2 hviable
  have hend : s.place.mayEnd = false := by
    by_contra hne
    obtain ⟨d, htokens, _⟩ :=
      (Reader.State.took_nil.run _ hrun).exists_documentTree (by simpa using hne)
    exact hnone d htokens
  obtain ⟨last, hlast⟩ := Reader.exists_getLast?_of_not_mayEnd hrun hend
  refine ⟨last, s.place.expected none, hlast, ?_⟩
  rw [build, Document.read, Document.ofLexing, hrun, hfault]
  show (s.finish _ >>= ofDocument) = _
  rw [Reader.State.finish, hend, Token.lastStop, hlast]
  rfl

/-- A record that repeats the name of an earlier one ends the building of a grammar. -/
theorem ofDocument_of_repeated {before after : Document} {record : Record}
    (hnodup : (before.map Record.name).Nodup) (hmem : record.name ∈ before.map Record.name) :
    ofDocument (before ++ record :: after) = .error ⟨.duplicateRule record.name, record.span⟩ := by
  obtain ⟨g, hg⟩ := exists_ofDocument hnodup
  have hrule : g.hasRule (g.nonterminals.slot record.name) = true := by
    by_contra hne
    exact (holds_of_ofDocument hg).not_mem_of_hasRule (by simpa using hne) hmem
  unfold ofDocument at hg ⊢
  rw [List.foldlM_append, hg]
  show List.foldlM addRecord g (record :: after) = _
  rw [List.foldlM_cons, addRecord_eq, if_pos hrule]
  rfl

/-- A text that is a document is built as what the document means. -/
theorem build_of_documentTree {d : DocumentTree} (hfault : (lex text).fault = none)
    (htokens : d.tokens = (lex text).tokens) : build text = ofDocument d.document := by
  rw [build, read_eq_ok_iff.2 ⟨hfault, d, htokens, rfl⟩]
  rfl

/-- The name of the first record that repeats an earlier one. -/
theorem build_of_repeated {d : DocumentTree} {before after : List RecordTree} {r : RecordTree}
    (hfault : (lex text).fault = none) (htokens : d.tokens = (lex text).tokens)
    (hrecords : d.records = before ++ r :: after) (hnodup : (before.map (·.name.text)).Nodup)
    (hmem : r.name.text ∈ before.map (·.name.text)) :
    build text = .error ⟨.duplicateRule r.name.text, r.name.span⟩ := by
  have hnames : (before.map RecordTree.record).map Record.name = before.map (·.name.text) :=
    List.map_map
  rw [build_of_documentTree hfault htokens, DocumentTree.document, hrecords, List.map_append,
    List.map_cons]
  exact ofDocument_of_repeated (by rwa [hnames]) (by rwa [hnames])

/-- A document without repetitions has no fault. -/
theorem exists_build_of_nodup {d : DocumentTree} (hfault : (lex text).fault = none)
    (htokens : d.tokens = (lex text).tokens) (hnodup : (d.records.map (·.name.text)).Nodup) :
    ∃ g, build text = .ok g := by
  rw [build_of_documentTree hfault htokens]
  refine exists_ofDocument ?_
  rwa [DocumentTree.document, List.map_map]

/-! ### Every fault -/

/-- Where names repeat, there is a first record that repeats an earlier one. -/
theorem exists_first_repeated {records : List RecordTree}
    (h : ¬ (records.map (·.name.text)).Nodup) : ∃ before r after, records = before ++ r :: after ∧
      (before.map (·.name.text)).Nodup ∧ r.name.text ∈ before.map (·.name.text) := by
  obtain ⟨before, r, after, hrecords, hbefore, hr⟩ := exists_first_failure
    (P := fun rs : List RecordTree => (rs.map (·.name.text)).Nodup) List.nodup_nil records h
  refine ⟨before, r, after, hrecords, hbefore, ?_⟩
  by_contra hnew
  refine hr ?_
  rw [List.map_append, List.map_singleton]
  refine List.nodup_append.2 ⟨hbefore, List.nodup_singleton _, fun name hname other hother heq => ?_⟩
  rw [List.mem_singleton.1 hother] at heq
  exact hnew (heq ▸ hname)

theorem name_mem_tokens {d : DocumentTree} {r : RecordTree} (h : r ∈ d.records) :
    r.name ∈ d.tokens :=
  List.mem_append_left _ (List.mem_flatMap.2 ⟨r, h, List.mem_cons_self ..⟩)

/-- **The span of every fault is that of a stretch of the text.**  A text has one of the four faults or
none, and each of them takes its span from a token or from the lexer. -/
theorem covers_of_build_error (h : build text = .error f) : f.span.Covers 0 text.toList := by
  have hlex : (lex text).Covers 0 text.toList := covers_lexFrom 0 text.toList
  by_cases hviable : Viable (lex text).tokens
  · cases hfault : (lex text).fault with
    | some fault =>
        cases h.symm.trans (build_of_fault hviable hfault)
        exact hlex.fault f hfault
    | none =>
        by_cases hcomplete : ∃ d : DocumentTree, d.tokens = (lex text).tokens
        · obtain ⟨d, htokens⟩ := hcomplete
          by_cases hnodup : (d.records.map (·.name.text)).Nodup
          · obtain ⟨g, hg⟩ := exists_build_of_nodup hfault htokens hnodup
            cases h.symm.trans hg
          · obtain ⟨before, r, after, hrecords, hbefore, hmem⟩ := exists_first_repeated hnodup
            cases h.symm.trans (build_of_repeated hfault htokens hrecords hbefore hmem)
            have hname : r.name ∈ d.tokens := name_mem_tokens (by simp [hrecords])
            exact hlex.token r.name (htokens ▸ hname)
        · obtain ⟨last, expected, hlast, hbuild⟩ := build_of_incomplete hviable hfault
            fun d hd => hcomplete ⟨d, hd⟩
          cases h.symm.trans hbuild
          exact (hlex.token last (List.mem_of_getLast? hlast)).atStop
  · obtain ⟨before, t, after, htokens, hbefore, ht⟩ :=
      exists_first_failure viable_nil (lex text).tokens hviable
    obtain ⟨expected, hbuild⟩ := build_of_not_viable htokens hbefore ht
    cases h.symm.trans hbuild
    exact hlex.token t (by simp [htokens])

/-- **A fault points at the first offence.**  The first token that leaves no document possible comes
before all else, then the place where the lexer stops, then the end of the last token of a document that
is not complete, then the name of the first record that repeats an earlier one; a text without these has
a grammar.  The span of every fault lies in the text between two characters, and its report counts lines
and characters. -/
theorem build_tells_first_offence (text : String) :
    (∀ k, IsLeast {k | ¬ Viable ((lex text).tokens.take k)} k → ∃ t expected,
      (lex text).tokens[k - 1]? = some t ∧
        build text = .error ⟨.unexpected expected (some t), t.span⟩) ∧
    (Viable (lex text).tokens → ∀ f, (lex text).fault = some f → build text = .error f) ∧
    (Viable (lex text).tokens → (lex text).fault = none →
      (∀ d : DocumentTree, d.tokens ≠ (lex text).tokens) → ∃ last expected,
        (lex text).tokens.getLast? = some last ∧
          build text = .error ⟨.unexpected expected none, ⟨last.span.stop, last.span.stop⟩⟩) ∧
    (∀ d : DocumentTree, (lex text).fault = none → d.tokens = (lex text).tokens →
      (∀ before r after, d.records = before ++ r :: after → (before.map (·.name.text)).Nodup →
        r.name.text ∈ before.map (·.name.text) →
          build text = .error ⟨.duplicateRule r.name.text, r.name.span⟩) ∧
      ((d.records.map (·.name.text)).Nodup → ∃ g, build text = .ok g)) ∧
    ∀ f, build text = .error f → f.Sited text := by
  refine ⟨fun k hk => ?_, fun hviable f => build_of_fault hviable, build_of_incomplete, ?_, ?_⟩
  · obtain ⟨before, t, after, htokens, rfl, hbefore, ht⟩ := exists_eq_append_of_isLeast hk
    obtain ⟨expected, hbuild⟩ := build_of_not_viable htokens hbefore ht
    exact ⟨t, expected, by simp [htokens], hbuild⟩
  · intro d hfault htokens
    exact ⟨fun before r after hrecords hnodup hmem =>
      build_of_repeated hfault htokens hrecords hnodup hmem, exists_build_of_nodup hfault htokens⟩
  · intro f hf
    exact Fault.sited_of_covers (covers_of_build_error hf)

/-- A text in which letters take up two bytes and the sixth token is the first offence. -/
def umlauts : String := "Ä : 'ü' ,\nÖ ) ."

/-- The closing bracket stands behind fifteen bytes, in the third column of the second line. -/
theorem build_tells_first_offence_umlauts :
    IsLeast {k | ¬ Viable ((lex umlauts).tokens.take k)} 6 ∧
    (∃ t expected, (lex umlauts).tokens[5]? = some t ∧ t.span = ⟨15, 16⟩ ∧
      build umlauts = .error ⟨.unexpected expected (some t), t.span⟩ ∧
      Fault.Sited ⟨.unexpected expected (some t), t.span⟩ umlauts) ∧
    Fault.position 15 umlauts.toList = (2, 3) := by
  have hshorter : ∀ k < 6, Viable ((lex umlauts).tokens.take k) := by decide +kernel
  have hleast : IsLeast {k | ¬ Viable ((lex umlauts).tokens.take k)} 6 := by
    refine ⟨(by decide +kernel : ¬ Viable ((lex umlauts).tokens.take 6)), fun k hk => ?_⟩
    by_contra hlt
    exact hk (hshorter k (by omega))
  have hspan : (lex umlauts).tokens[5]?.map Token.span = some ⟨15, 16⟩ := by decide +kernel
  obtain ⟨htoken, _, _, _, hsited⟩ := build_tells_first_offence umlauts
  obtain ⟨t, expected, ht, hbuild⟩ := htoken 6 hleast
  rw [show 6 - 1 = 5 from rfl] at ht
  rw [ht] at hspan
  exact ⟨hleast, ⟨t, expected, ht, Option.some.inj hspan, hbuild, hsited _ hbuild⟩, by decide +kernel⟩

end Grammar

end RuleGrammar
