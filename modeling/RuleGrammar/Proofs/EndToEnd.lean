import RuleGrammar.Proofs.NameLanguage
import RuleGrammar.Proofs.Revision.Factoring
import RuleGrammar.Proofs.Revision.LeftRecursion
import RuleGrammar.Proofs.Revision.Useless
import RuleGrammar.Report

/-!
# From text to text

A text is read, transformed and written again.  Each transform keeps the name and the words of the start
symbol, and reading undoes writing, so the text that comes out has the words of the text that went in.
Numbers change on the way, and so the words are compared by the names of their terminals.

* `SameStart`: a grammar with the same start symbol, by its name and its words.
* `sameStart_apply`, `sameStart_applyAll`: one transform, and any list of them.
* `acceptsNames_of_reread`: a grammar that is written and read back.
* `Report.accepts_same_after_run`: the text that comes out of a run has the words of its input.
-/

namespace RuleGrammar

open Grammar

variable {g g' g'' : Grammar}

/-! ### The start symbol -/

namespace Grammar

/-- The second grammar has the start symbol of the first one, with its name and its words. -/
structure SameStart (g g' : Grammar) : Prop where
  terminals : g'.terminals = g.terminals
  name : g'.nonterminals.name? 0 = g.nonterminals.name? 0
  language : ∀ w, g'.Language 0 w ↔ g.Language 0 w

theorem SameStart.refl (g : Grammar) : g.SameStart g := ⟨rfl, rfl, fun _ => Iff.rfl⟩

theorem SameStart.trans (h : g.SameStart g') (h' : g'.SameStart g'') : g.SameStart g'' :=
  ⟨h'.terminals.trans h.terminals, h'.name.trans h.name,
    fun w => (h'.language w).trans (h.language w)⟩

theorem Keeps.sameStart (h : g.Keeps g') (hpos : 0 < g.nonterminals.size) : g.SameStart g' := by
  refine ⟨h.terminals, ?_, fun w => h.language hpos⟩
  obtain ⟨name, hname⟩ := SymbolTable.exists_name?_of_lt hpos
  rw [hname, h.nonterminals 0 name hname]

/-- A start symbol with the same words accepts the same words of names. -/
theorem SameStart.acceptsNames_eq (h : g.SameStart g') (names : List String) :
    g'.acceptsNames 0 names = g.acceptsNames 0 names := by
  unfold acceptsNames
  rw [h.terminals]
  cases names.mapM g.terminals.id? with
  | none => rfl
  | some w => exact Bool.eq_iff_iff.2 (by rw [accepts_iff, accepts_iff]; exact h.language w)

end Grammar

/-! ### Transforms -/

namespace Transform

/-- One transform keeps the start symbol of a grammar, as long as that derives a word. -/
theorem sameStart_apply (hg : g.Orderly) {sample : Word} (hstart : g.Language 0 sample)
    (t : Transform) (hsize : t = .useless → g.nonterminals.size ≤ 999) :
    (apply g t).grammar.Orderly ∧ g.SameStart (apply g t).grammar := by
  have hpos := (language_iff.1 hstart).1
  cases t with
  | leftRecursion =>
      obtain ⟨_, hkeeps⟩ := LeftRecursion.keeps_eliminateAll hg.toWellFormed
      exact ⟨LeftRecursion.orderly_eliminateAll hg, hkeeps.sameStart hpos⟩
  | factorize =>
      obtain ⟨horderly, hkeeps⟩ := Factoring.keeps_factorAll hg
      exact ⟨horderly, hkeeps.sameStart hpos⟩
  | useless =>
      have hthins := Useless.thins_removeUseless g
      have hconv := (Useless.settles_productive (hsize rfl)).converged
      have hlanguage := fun w => Useless.language_removeUseless (w := w) hg.toWellFormed hconv
      exact ⟨hthins.orderly hg, hthins.terminals, congrArg (SymbolTable.name? · 0) hthins.nonterminals,
        hlanguage⟩

theorem grammar_applyAll_concat (g : Grammar) (ts : List Transform) (t : Transform) :
    (applyAll g (ts ++ [t])).grammar = (apply (applyAll g ts).grammar t).grammar := by
  rw [applyAll, List.foldl_append]
  rfl

/-- **Any list of transforms keeps the start symbol.**  By induction from the end of the list: what the
last transform starts from has the words of the first grammar, so its start symbol still derives one. -/
theorem sameStart_applyAll (hg : g.Orderly) {sample : Word} (hstart : g.Language 0 sample)
    (ts : List Transform) (hsize : ∀ before after, ts = before ++ .useless :: after →
      (applyAll g before).grammar.nonterminals.size ≤ 999) :
    (applyAll g ts).grammar.Orderly ∧ g.SameStart (applyAll g ts).grammar := by
  induction ts using List.reverseRecOn with
  | nil => exact ⟨hg, SameStart.refl g⟩
  | append_singleton ts t ih =>
      obtain ⟨horderly, hsame⟩ := ih fun before after hts =>
        hsize before (after ++ [t]) (by rw [hts, List.append_assoc, List.cons_append])
      obtain ⟨hnext, hstep⟩ := sameStart_apply horderly ((hsame.language sample).2 hstart) t
        fun ht => hsize ts [] (by rw [ht])
      rw [grammar_applyAll_concat]
      exact ⟨hnext, hsame.trans hstep⟩

end Transform

/-! ### Writing and reading back -/

/-- A grammar with a rule for its start symbol is read back with the same start symbol, which accepts
the same words. -/
theorem acceptsNames_of_reread {rule : Rule} (hg : g.Orderly) (hrule : g.rule? 0 = some rule) :
    ∃ g', build g.toText = .ok g' ∧ g'.nonterminals.name? 0 = g.nonterminals.name? 0 ∧
      ∀ names, g'.acceptsNames 0 names = g.acceptsNames 0 names := by
  obtain ⟨g', hbuild, hg', _, hrules, hfirst⟩ := exists_build_toText hg.toWellFormed hg.readable
  obtain ⟨name, hname⟩ := SymbolTable.exists_name?_of_lt (hg.owned hrule)
  have hname' : g'.nonterminals.name? 0 = some name := by
    rw [hfirst rule hrule, hname]
  refine ⟨g', hbuild, hfirst rule hrule, fun names => Bool.eq_iff_iff.2 ?_⟩
  rw [acceptsNames_iff_spoken hg' hname', acceptsNames_iff_spoken hg.toWellFormed hname]
  exact spoken_leftNested_iff hrules

namespace Report

/-- **The text that comes out of a run has the words of the text that went in.**  It can be read, its
start symbol has the same name, and this accepts the same words of terminal names. -/
theorem accepts_same_after_run {text : String} (config : Config) {start : Nat}
    (hbuild : build text = .ok g) (hstart : g.start? = some start) (hword : ∃ w, g.Language start w)
    (hsize : ∀ before after, config.transforms = before ++ .useless :: after →
      (Transform.applyAll g before).grammar.nonterminals.size ≤ 999) :
    ∃ output g' start' name, run text config = .ok output ∧ build output.grammar.toText = .ok g' ∧
      g'.start? = some start' ∧ g.nonterminals.name? start = some name ∧
      g'.nonterminals.name? start' = some name ∧
      ∀ names, g'.acceptsNames start' names = g.acceptsNames start names := by
  obtain ⟨rfl, hpos⟩ := start?_eq_some_iff.1 hstart
  obtain ⟨sample, hsample⟩ := hword
  obtain ⟨horderly, hsame⟩ :=
    Transform.sameStart_applyAll (orderly_of_build hbuild) hsample config.transforms hsize
  -- the start symbol still derives a word, so it owns a rule and is written first
  have hkept := (hsame.language sample).2 hsample
  obtain ⟨_, rule, hrule, _⟩ := language_iff.1 hkept
  obtain ⟨g', hreread, hname', haccepts⟩ := acceptsNames_of_reread horderly hrule
  obtain ⟨name, hname⟩ := SymbolTable.exists_name?_of_lt hpos
  rw [hsame.name, hname] at hname'
  refine ⟨ofGrammar config g, g', 0, name, ?_, hreread, ?_, hname, hname', fun names => ?_⟩
  · rw [run, hbuild]
    rfl
  · exact start?_eq_some_iff.2 ⟨rfl, SymbolTable.lt_size_of_name? hname'⟩
  · rw [haccepts, hsame.acceptsNames_eq]

/-- Sums with left recursion, with alternatives that share their first element, and with a useless
rule. -/
def sumsText : String := "sum : sum , '+' , item ; item .\nitem : 'a' , 'b' ; 'a' ; lost .\nlost : lost .\nEOGram!"

def sums : Grammar := (build sumsText).toOption.getD Grammar.empty

theorem build_sumsText : build sumsText = .ok sums := build_eq_ok_of_toOption (by decide +kernel)

/-- Sums go through all three transforms, and what is read back has their words. -/
theorem accepts_same_after_run_sums : build sumsText = .ok sums ∧ sums.start? = some 0 ∧
    sums.accepts 0 [2] = true ∧ ∃ output g' start',
      run sumsText { transforms := Transform.all } = .ok output ∧
      build output.grammar.toText = .ok g' ∧ g'.start? = some start' ∧
      g'.nonterminals.name? start' = some "sum" ∧
      ∀ names, g'.acceptsNames start' names = sums.acceptsNames 0 names := by
  have hsize : ∀ before after, Transform.all = before ++ .useless :: after →
      (Transform.applyAll sums before).grammar.nonterminals.size ≤ 999 := by
    intro before after h
    match before, h with
    | [a, b], h =>
        cases h
        decide +kernel
    | [], h => cases h
    | [a], h => cases h
    | [a, b, c], h => cases h
    | a :: b :: c :: d :: rest, h => cases h
  have hstart : sums.start? = some 0 := by decide +kernel
  have hword : sums.accepts 0 [2] = true := by decide +kernel
  have hsum : sums.nonterminals.name? 0 = some "sum" := by decide +kernel
  obtain ⟨output, g', start', name, hrun, hreread, hstart', hname, hname', haccepts⟩ :=
    accepts_same_after_run { transforms := Transform.all } build_sumsText hstart
      ⟨_, (accepts_iff sums 0 [2]).1 hword⟩ hsize
  rw [hsum] at hname
  cases hname
  exact ⟨build_sumsText, hstart, hword, output, g', start', hrun, hreread, hstart', hname', haccepts⟩

end Report

end RuleGrammar
