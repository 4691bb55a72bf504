import Mathlib.Data.List.Induction
import Mathlib.Order.Bounds.Basic
import RuleGrammar.Proofs.Acceptance

/-!
# Tokens that can still become a document

A list of tokens is viable if it is the beginning of a document.  The reader takes exactly the viable
lists: what it has taken can always be completed, since it only has to find an operand, to close the
open brackets and to end the record.  So the token at which it stops is the first one that leaves no
document possible.

* `Viable`: the beginning of a document.
* `Place.completion`: tokens that complete what has been read.
* `exists_run_iff_viable`: the reader takes exactly the viable lists.
* `exists_run_eq_error`: where the reader stops.
* `exists_first_failure`: where a property of the parts of a list fails first.
-/

namespace RuleGrammar

open Token (Kind)

/-- The tokens are the beginning of a document. -/
def Viable (ts : List Token) : Prop := ∃ d : DocumentTree, ts <+: d.tokens

variable {ts before after : List Token} {t : Token}

theorem viable_nil : Viable [] := ⟨⟨[], none⟩, List.nil_prefix⟩

/-- A property of the beginnings of a list that fails for the whole list fails first behind some
element. -/
theorem exists_first_failure {α : Type} {P : List α → Prop} (hnil : P []) (l : List α) :
    ¬ P l → ∃ before x after, l = before ++ x :: after ∧ P before ∧ ¬ P (before ++ [x]) := by
  induction l using List.reverseRecOn with
  | nil => exact fun hfails => absurd hnil hfails
  | append_singleton l x ih =>
      intro hfails
      by_cases hl : P l
      · exact ⟨l, x, [], rfl, hl, hfails⟩
      · obtain ⟨before, y, after, rfl, hbefore, hy⟩ := ih hl
        exact ⟨before, y, after ++ [x], by simp, hbefore, hy⟩

/-- The shortest part that is not viable ends with the first token that leaves no document possible. -/
theorem exists_eq_append_of_isLeast {k : Nat} (h : IsLeast {k | ¬ Viable (ts.take k)} k) :
    ∃ before t after, ts = before ++ t :: after ∧ before.length + 1 = k ∧ Viable before ∧
      ¬ Viable (before ++ [t]) := by
  obtain ⟨hfails, hleast⟩ := h
  have hfails : ¬ Viable (ts.take k) := hfails
  cases k with
  | zero => exact absurd viable_nil hfails
  | succ k =>
      have hshorter : Viable (ts.take k) := by
        by_contra hne
        exact absurd (hleast hne) (Nat.not_succ_le_self k)
      have hk : k < ts.length := by
        by_contra hle
        rw [List.take_of_length_le (by omega)] at hfails hshorter
        exact hfails hshorter
      refine ⟨ts.take k, ts[k], ts.drop (k + 1), ?_, ?_, hshorter, ?_⟩
      · rw [List.getElem_cons_drop, List.take_append_drop]
      · rw [List.length_take, Nat.min_eq_left hk.le]
      · rwa [List.take_append_getElem hk]

namespace Reader

variable {s : State}

/-! ### Completions -/

def bare (kind : Kind) : Token := ⟨kind, "", ⟨0, 0⟩⟩

/-- The tokens that make the operand that is due. -/
def Inside.filler : Inside → List Token
  | .operand => [bare .epsilon]
  | .action => [bare .ident]
  | .opened => [bare .ident]
  | .operator _ => []

def Nest.closers (nest : Nest) : List Token := nest.brackets.map fun (bracket, _) => bare bracket.closer

/-- The tokens that complete what has been read: an operand if one is due, the closing brackets and
the dot. -/
def Place.completion : Place → List Token
  | .between => []
  | .named _ _ => [bare .colon, bare .epsilon, bare .dot]
  | .inside _ _ nest state => (state.filler ++ nest.closers) ++ [bare .dot]
  | .finished => []

theorem insideRun_filler (nest : Nest) (state : Inside) :
    ∃ e, insideRun (nest, state) state.filler = some (nest, .operator e) := by
  cases state with
  | operand => exact ⟨.empty, rfl⟩
  | action => exact ⟨.semantic "", rfl⟩
  | opened => exact ⟨.reference "" true, rfl⟩
  | operator e => exact ⟨e, rfl⟩

/-- The closing brackets leave no bracket open.  By induction on the open brackets, the innermost
first. -/
theorem insideRun_closers (brackets : List (Bracket × Level)) : ∀ (level : Level) (e : Expr),
    ∃ level' e', insideRun (⟨level, brackets⟩, .operator e) (Nest.closers ⟨level, brackets⟩)
      = some (⟨level', []⟩, .operator e') := by
  induction brackets with
  | nil => exact fun level e => ⟨level, e, rfl⟩
  | cons opened brackets ih =>
      intro level e
      obtain ⟨bracket, outer⟩ := opened
      have hstep : stepInside ⟨level, (bracket, outer) :: brackets⟩ (.operator e) (bare bracket.closer)
          = some (⟨outer, brackets⟩, .operator (bracket.around (level.alternativeWith e))) := by
        cases bracket with
        | round => rfl
        | square => rfl
      obtain ⟨level', e', hrun⟩ := ih outer (bracket.around (level.alternativeWith e))
      exact ⟨level', e', (insideRun_cons_of_some hstep).trans hrun⟩

/-- **What has been read can be completed.** -/
theorem run_completion (s : State) :
    ∃ s', s.run s.place.completion = .ok s' ∧ s'.place.mayEnd = true := by
  obtain ⟨records, place⟩ := s
  cases place with
  | between => exact ⟨_, rfl, rfl⟩
  | named name span => exact ⟨_, rfl, rfl⟩
  | finished => exact ⟨_, rfl, rfl⟩
  | inside name span nest state =>
      obtain ⟨e, hfiller⟩ := insideRun_filler nest state
      obtain ⟨level, last, hclosers⟩ := insideRun_closers nest.brackets nest.level e
      have hinside : insideRun (nest, state) (state.filler ++ nest.closers)
          = some (⟨level, []⟩, .operator last) := (insideRun_append_of_some hfiller).trans hclosers
      refine ⟨⟨⟨name, span, level.alternativeWith last⟩ :: records, .between⟩, ?_, rfl⟩
      exact run_insideRun (state.filler ++ nest.closers) [bare .dot] hinside

/-! ### Runs -/

theorem run_append (ts us : List Token) : ∀ s : State,
    s.run (ts ++ us) = (s.run ts).bind fun s' => s'.run us := by
  induction ts with
  | nil => exact fun s => rfl
  | cons t ts ih =>
      intro s
      rw [List.cons_append, State.run, State.run]
      split
      · exact ih _
      · rfl

/-- **The reader takes exactly the beginnings of documents.** -/
theorem exists_run_iff_viable : (∃ s, ({} : State).run ts = .ok s) ↔ Viable ts := by
  constructor
  · rintro ⟨s, hrun⟩
    obtain ⟨s', hcompletion, hend⟩ := run_completion s
    have hwhole : ({} : State).run (ts ++ s.place.completion) = .ok s' := by
      rw [run_append, hrun]
      exact hcompletion
    obtain ⟨d, htokens, _⟩ := (State.took_nil.run _ hwhole).exists_documentTree hend
    exact ⟨d, s.place.completion, htokens.symm⟩
  · rintro ⟨d, us, htokens⟩
    obtain ⟨s, hrun, _⟩ := run_of_documentPhrase d.phrase []
    rw [← htokens, run_append] at hrun
    cases hbegin : ({} : State).run ts with
    | ok s' => exact ⟨s', rfl⟩
    | error fault =>
        rw [show (⟨[], .between⟩ : State) = {} from rfl, hbegin] at hrun
        cases hrun

/-- Whether a document is still possible is found out by reading. -/
instance : DecidablePred Viable := fun ts =>
  decidable_of_iff ((({} : State).run ts).isOk = true) (by
    rw [← exists_run_iff_viable]
    cases ({} : State).run ts with
    | ok s => exact ⟨fun _ => ⟨s, rfl⟩, fun _ => rfl⟩
    | error fault => exact ⟨fun h => (by cases h), fun ⟨s, hs⟩ => (by cases hs)⟩)

/-- **The reader stops at the first token that leaves no document possible.** -/
theorem exists_run_eq_error (hbefore : Viable before) (ht : ¬ Viable (before ++ [t])) :
    ∃ expected, ({} : State).run (before ++ t :: after)
      = .error ⟨.unexpected expected (some t), t.span⟩ := by
  obtain ⟨s, hrun⟩ := exists_run_iff_viable.2 hbefore
  have hnone : s.step t = none := by
    cases hstep : s.step t with
    | none => rfl
    | some next =>
        refine absurd (exists_run_iff_viable.1 ⟨next, ?_⟩) ht
        rw [run_append, hrun]
        exact run_cons_of_step hstep
  refine ⟨s.place.expected (some t.kind), ?_⟩
  rw [run_append, hrun]
  show s.run (t :: after) = _
  rw [State.run, hnone]

/-- A document that is not complete has a last token. -/
theorem exists_getLast?_of_not_mayEnd (hrun : ({} : State).run ts = .ok s)
    (hend : s.place.mayEnd = false) : ∃ last, ts.getLast? = some last := by
  cases ts with
  | nil =>
      cases hrun
      cases hend
  | cons t ts => exact ⟨_, List.getLast?_eq_some_getLast (List.cons_ne_nil t ts)⟩

end Reader

end RuleGrammar
