import RuleGrammar.Document.Phrase
import RuleGrammar.Document.Reader

/-!
# Phrases are read

The reader takes the tokens of a phrase one by one and ends with what the phrase means.  An atom is
read from any place where an operand may begin; a phrase of a looser rank is read from a place where
nothing of that rank waits for its right partner, and leaves its own operands waiting there.

* `insideRun`: what tokens inside a record do.
* `Reads`: how the reader takes a phrase of a rank; `reads_of_phrase`.
* `phrase_unique`: tokens have at most one meaning as alternatives.
* `run_of_recordPhrase`, `read_of_documentPhrase`: records and documents.
-/

namespace RuleGrammar

open Token (Kind)

namespace Reader

variable {nest nest' : Nest} {state state' : Inside} {ts us : List Token} {t : Token} {e e' : Expr}

/-! ### Inside a record -/

/-- What tokens inside a record do, if none of them ends it. -/
def insideRun : Nest × Inside → List Token → Option (Nest × Inside)
  | s, [] => some s
  | s, t :: ts => (stepInside s.1 s.2 t).bind fun s => insideRun s ts

theorem insideRun_append (s : Nest × Inside) (ts us : List Token) :
    insideRun s (ts ++ us) = (insideRun s ts).bind fun s => insideRun s us := by
  induction ts generalizing s with
  | nil => rfl
  | cons t ts ih =>
      rw [List.cons_append, insideRun, insideRun, Option.bind_assoc]
      simp only [ih]

theorem insideRun_append_of_some {s m : Nest × Inside} (h : insideRun s ts = some m) :
    insideRun s (ts ++ us) = insideRun m us := by
  rw [insideRun_append, h]
  rfl

theorem insideRun_cons_of_some {m : Nest × Inside} (h : stepInside nest state t = some m) :
    insideRun (nest, state) (t :: ts) = insideRun m ts := by
  rw [insideRun, h]
  rfl

/-- A token that goes on inside a record does not end it. -/
theorem endRecord?_of_stepInside {s : Nest × Inside} (h : stepInside nest state t = some s) :
    endRecord? nest state t = none := by
  unfold endRecord?
  split
  · next hkind _ =>
      rw [stepInside, stepOperator, hkind] at h
      cases h
  · rfl

theorem run_cons_of_step {s s' : State} (h : s.step t = some s') : s.run (t :: ts) = s'.run ts := by
  rw [State.run, h]

theorem run_insideRun {name : String} {span : Span} {records : List Record} (ts us : List Token) :
    ∀ {s s' : Nest × Inside}, insideRun s ts = some s' →
      State.run ⟨records, .inside name span s.1 s.2⟩ (ts ++ us)
        = State.run ⟨records, .inside name span s'.1 s'.2⟩ us := by
  induction ts with
  | nil =>
      intro s s' h
      cases h
      rfl
  | cons t ts ih =>
      intro s s' h
      obtain ⟨m, hstep, hrun⟩ := Option.bind_eq_some_iff.1 h
      have hnext : State.step ⟨records, .inside name span s.1 s.2⟩ t
          = some ⟨records, .inside name span m.1 m.2⟩ := by
        simp only [State.step, endRecord?_of_stepInside hstep, hstep, Option.map_some]
      rw [List.cons_append, run_cons_of_step hnext]
      exact ih hrun

/-! ### Phrases -/

/-- How the reader takes the tokens of a phrase of a rank that means `e`. -/
def Reads : Phrase.Rank → List Token → Expr → Prop
  | .atom, ts, e => ∀ nest, insideRun (nest, .operand) ts = some (nest, .operator e)
  | .iteration, ts, e => ∀ nest : Nest, nest.level.iteration = none →
      ∃ level last, insideRun (nest, .operand) ts = some (⟨level, nest.brackets⟩, .operator last) ∧
        level.alternative = nest.level.alternative ∧ level.sequence = nest.level.sequence ∧
        level.iterationWith last = e
  | .sequence, ts, e => ∀ nest : Nest, nest.level.iteration = none → nest.level.sequence = none →
      ∃ level last, insideRun (nest, .operand) ts = some (⟨level, nest.brackets⟩, .operator last) ∧
        level.alternative = nest.level.alternative ∧ level.sequenceWith last = e
  | .alternative, ts, e => ∀ brackets, ∃ level last,
      insideRun (⟨{}, brackets⟩, .operand) ts = some (⟨level, brackets⟩, .operator last) ∧
        level.alternativeWith last = e

theorem reads_single (h : ∀ nest, stepInside nest .operand t = some (nest, .operator e)) :
    Reads .atom [t] e := by
  intro nest
  rw [insideRun_cons_of_some (h nest)]
  rfl

/-- Brackets around alternatives make an atom. -/
theorem reads_bracket {l r : Token} (bracket : Bracket)
    (hl : ∀ nest, stepInside nest .operand l
      = some (⟨{}, (bracket, nest.level) :: nest.brackets⟩, .operand))
    (hr : ∀ nest e, stepInside nest (.operator e) r = closeBracket nest e bracket)
    (h : Reads .alternative ts e) : Reads .atom (l :: ts ++ [r]) (bracket.around e) := by
  intro nest
  obtain ⟨level, last, hrun, hmeans⟩ := h ((bracket, nest.level) :: nest.brackets)
  rw [List.cons_append, insideRun_cons_of_some (hl nest), insideRun_append_of_some hrun]
  have hclose : stepInside ⟨level, (bracket, nest.level) :: nest.brackets⟩ (.operator last) r
      = some (nest, .operator (bracket.around e)) := by
    rw [hr, closeBracket]
    simp only [if_true, hmeans]
  rw [insideRun_cons_of_some hclose]
  rfl

theorem reads_iter {ls rs : List Token} {l r : Expr} (hl : Reads .iteration ls l)
    (ht : t.kind = .iterate) (hr : Reads .atom rs r) :
    Reads .iteration (ls ++ t :: rs) (.iter l r) := by
  intro nest hnone
  obtain ⟨level, last, hrun, halt, hseq, hmeans⟩ := hl nest hnone
  refine ⟨{ level with iteration := some l }, r, ?_, halt, hseq, rfl⟩
  have hstep : stepInside ⟨level, nest.brackets⟩ (.operator last) t
      = some (⟨{ level with iteration := some l }, nest.brackets⟩, .operand) := by
    simp only [stepInside, stepOperator, ht, hmeans]
  rw [insideRun_append_of_some hrun, insideRun_cons_of_some hstep]
  exact hr _

theorem reads_seq {ls rs : List Token} {l r : Expr} (hl : Reads .sequence ls l)
    (ht : t.kind = .comma) (hr : Reads .iteration rs r) :
    Reads .sequence (ls ++ t :: rs) (.seq l r) := by
  intro nest hiter hseq
  obtain ⟨level, last, hrun, halt, hmeans⟩ := hl nest hiter hseq
  have hstep : stepInside ⟨level, nest.brackets⟩ (.operator last) t
      = some (⟨{ level with sequence := some l, iteration := none }, nest.brackets⟩, .operand) := by
    simp only [stepInside, stepOperator, ht, hmeans]
  obtain ⟨level', last', hrun', halt', hseq', hmeans'⟩ :=
    hr ⟨{ level with sequence := some l, iteration := none }, nest.brackets⟩ rfl
  refine ⟨level', last', ?_, halt'.trans halt, ?_⟩
  · rw [insideRun_append_of_some hrun, insideRun_cons_of_some hstep]
    exact hrun'
  · rw [Level.sequenceWith, hseq', hmeans']
    rfl

theorem reads_alt {ls rs : List Token} {l r : Expr} (hl : Reads .alternative ls l)
    (ht : t.kind = .semicolon) (hr : Reads .sequence rs r) :
    Reads .alternative (ls ++ t :: rs) (.alt l r) := by
  intro brackets
  obtain ⟨level, last, hrun, hmeans⟩ := hl brackets
  have hstep : stepInside ⟨level, brackets⟩ (.operator last) t
      = some (⟨{ alternative := some l }, brackets⟩, .operand) := by
    simp only [stepInside, stepOperator, ht, hmeans]
  obtain ⟨level', last', hrun', halt', hmeans'⟩ := hr ⟨{ alternative := some l }, brackets⟩ rfl rfl
  refine ⟨level', last', ?_, ?_⟩
  · rw [insideRun_append_of_some hrun, insideRun_cons_of_some hstep]
    exact hrun'
  · rw [Level.alternativeWith, halt', hmeans']
    rfl

/-- **The reader takes every phrase.**  By induction on the phrase, with one case for each way to form
one. -/
theorem reads_of_phrase {rank : Phrase.Rank} (h : Phrase rank ts e) : Reads rank ts e := by
  induction h with
  | quotation hkind => exact reads_single fun nest => by simp only [stepInside, stepOperand, hkind]
  | name hkind => exact reads_single fun nest => by simp only [stepInside, stepOperand, hkind]
  | empty hkind => exact reads_single fun nest => by simp only [stepInside, stepOperand, hkind]
  | @action d t hd hkind =>
      intro nest
      have hfirst : stepInside nest .operand d = some (nest, .action) := by
        simp only [stepInside, stepOperand, hd]
      have hsecond : stepInside nest .action t = some (nest, .operator (.semantic t.text)) := by
        simp only [stepInside, hkind, if_true]
      rw [insideRun_cons_of_some hfirst, insideRun_cons_of_some hsecond]
      rfl
  | @opened p t hp hkind =>
      intro nest
      have hfirst : stepInside nest .operand p = some (nest, .opened) := by
        simp only [stepInside, stepOperand, hp]
      have hsecond : stepInside nest .opened t = some (nest, .operator (.reference t.text true)) := by
        simp only [stepInside, hkind, if_true]
      rw [insideRun_cons_of_some hfirst, insideRun_cons_of_some hsecond]
      rfl
  | group hl _ hr ih =>
      exact reads_bracket .round (fun nest => by simp only [stepInside, stepOperand, hl])
        (fun nest e => by simp only [stepInside, stepOperator, hr]) ih
  | option hl _ hr ih =>
      exact reads_bracket .square (fun nest => by simp only [stepInside, stepOperand, hl])
        (fun nest e => by simp only [stepInside, stepOperator, hr]) ih
  | ofAtom _ ih =>
      intro nest hnone
      refine ⟨nest.level, _, ih nest, rfl, rfl, ?_⟩
      rw [Level.iterationWith, hnone]
      rfl
  | iter _ ht _ ihl ihr => exact reads_iter ihl ht ihr
  | ofIteration _ ih =>
      intro nest hiter hseq
      obtain ⟨level, last, hrun, halt, hsame, hmeans⟩ := ih nest hiter
      refine ⟨level, last, hrun, halt, ?_⟩
      rw [Level.sequenceWith, hsame, hseq, hmeans]
      rfl
  | seq _ ht _ ihl ihr => exact reads_seq ihl ht ihr
  | ofSequence _ ih =>
      intro brackets
      obtain ⟨level, last, hrun, halt, hmeans⟩ := ih ⟨{}, brackets⟩ rfl rfl
      refine ⟨level, last, hrun, ?_⟩
      rw [Level.alternativeWith, halt, hmeans]
      rfl
  | alt _ ht _ ihl ihr => exact reads_alt ihl ht ihr

/-- Tokens have at most one meaning as alternatives. -/
theorem phrase_unique (h : Phrase .alternative ts e) (h' : Phrase .alternative ts e') : e = e' := by
  obtain ⟨level, last, hrun, hmeans⟩ := reads_of_phrase h []
  obtain ⟨level', last', hrun', hmeans'⟩ := reads_of_phrase h' []
  rw [hrun] at hrun'
  cases hrun'
  exact hmeans.symm.trans hmeans'

/-! ### Documents -/

theorem run_of_recordPhrase {record : Record} (h : RecordPhrase ts record) (records : List Record)
    (us : List Token) :
    State.run ⟨records, .between⟩ (ts ++ us) = State.run ⟨record :: records, .between⟩ us := by
  cases h with
  | @intro name colon dot body e hname hcolon hbody hdot =>
      obtain ⟨level, last, hrun, hmeans⟩ := reads_of_phrase hbody []
      have hfirst : State.step ⟨records, .between⟩ name
          = some ⟨records, .named name.text name.span⟩ := by
        simp only [State.step, hname]
      have hsecond : State.step ⟨records, .named name.text name.span⟩ colon
          = some ⟨records, .inside name.text name.span {} .operand⟩ := by
        simp only [State.step, hcolon, if_true]
      have hlast : State.step ⟨records, .inside name.text name.span ⟨level, []⟩ (.operator last)⟩ dot
          = some ⟨⟨name.text, name.span, e⟩ :: records, .between⟩ := by
        simp only [State.step, endRecord?, hdot, hmeans]
      have hmiddle : State.run ⟨records, .inside name.text name.span {} .operand⟩ (body ++ dot :: us)
          = State.run ⟨records, .inside name.text name.span ⟨level, []⟩ (.operator last)⟩ (dot :: us) :=
        run_insideRun body (dot :: us) hrun
      simp only [List.cons_append, List.append_assoc, List.nil_append]
      rw [run_cons_of_step hfirst, run_cons_of_step hsecond, hmiddle, run_cons_of_step hlast]

theorem run_of_documentPhrase {document : Document} (h : DocumentPhrase ts document) :
    ∀ records : List Record, ∃ s, State.run ⟨records, .between⟩ ts = .ok s ∧
      s.place.mayEnd = true ∧ s.records.reverse = records.reverse ++ document := by
  induction h with
  | nil =>
      intro records
      exact ⟨_, rfl, rfl, (List.append_nil _).symm⟩
  | finish hkind =>
      intro records
      refine ⟨⟨records, .finished⟩, ?_, rfl, (List.append_nil _).symm⟩
      simp only [State.run, State.step, hkind]
  | cons hrecord _ ih =>
      intro records
      obtain ⟨s, hrun, hend, hrecords⟩ := ih (_ :: records)
      refine ⟨s, ?_, hend, ?_⟩
      · rw [run_of_recordPhrase hrecord]
        exact hrun
      · rw [hrecords, List.reverse_cons, List.append_assoc, List.singleton_append]

/-- **A text that is cut into the tokens of a document is read as that document.** -/
theorem read_of_documentPhrase {lexing : Token.Lexing} {document : Document}
    (hfault : lexing.fault = none) (h : DocumentPhrase lexing.tokens document) :
    Document.ofLexing lexing = .ok document := by
  obtain ⟨s, hrun, hend, hrecords⟩ := run_of_documentPhrase h []
  unfold Document.ofLexing
  rw [show ({} : State) = ⟨[], .between⟩ from rfl, hrun, hfault]
  show s.finish _ = _
  rw [State.finish, if_pos hend, hrecords]
  rfl

end Reader

end RuleGrammar
