import RuleGrammar.Proofs.Printing

/-!
# What is read can be written

Names come from tokens that are names, and terminals from quotations without line breaks, so the records
of every document that was read are legible.  The reader carries operands along, and each of its steps
keeps all of them legible.

* `Record.Legible`: a record whose name and rule can be read back.
* `State.Legible`: the same for all that the reader carries along; `legible_step`, `legible_run`.
* `legible_of_read`: the records of a text.
-/

namespace RuleGrammar

open Token (Fine)

/-- The name of a record is a name, and its rule is legible. -/
def Record.Legible (record : Record) : Prop := Token.IsIdentifier record.name ∧ record.body.Legible

namespace Reader

structure Level.Legible (level : Level) : Prop where
  alternative : ∀ e ∈ level.alternative, e.Legible
  sequence : ∀ e ∈ level.sequence, e.Legible
  iteration : ∀ e ∈ level.iteration, e.Legible

structure Nest.Legible (nest : Nest) : Prop where
  level : nest.level.Legible
  brackets : ∀ b ∈ nest.brackets, b.2.Legible

def Inside.Legible : Inside → Prop
  | .operator e => e.Legible
  | _ => True

def Place.Legible : Place → Prop
  | .named name _ => Token.IsIdentifier name
  | .inside name _ nest state => Token.IsIdentifier name ∧ nest.Legible ∧ state.Legible
  | _ => True

structure State.Legible (s : State) : Prop where
  records : ∀ record ∈ s.records, record.Legible
  place : s.place.Legible

variable {nest : Nest} {state : Inside} {t : Token} {e : Expr}

theorem legible_joined {node : Expr → Expr → Expr} {left : Option Expr}
    (hnode : ∀ l r : Expr, l.Legible → r.Legible → (node l r).Legible)
    (hleft : ∀ l ∈ left, l.Legible) (he : e.Legible) : (joined node left e).Legible := by
  cases left with
  | none => exact he
  | some l => exact hnode l e (hleft l rfl) he

namespace Level.Legible

variable {level : Level}

theorem empty : ({} : Level).Legible :=
  ⟨fun _ h => (by cases h), fun _ h => (by cases h), fun _ h => (by cases h)⟩

theorem iterationWith (h : level.Legible) (he : e.Legible) : (level.iterationWith e).Legible :=
  legible_joined (fun _ _ hl hr => ⟨hl, hr⟩) h.iteration he

theorem sequenceWith (h : level.Legible) (he : e.Legible) : (level.sequenceWith e).Legible :=
  legible_joined (fun _ _ hl hr => ⟨hl, hr⟩) h.sequence (h.iterationWith he)

theorem alternativeWith (h : level.Legible) (he : e.Legible) : (level.alternativeWith e).Legible :=
  legible_joined (fun _ _ hl hr => ⟨hl, hr⟩) h.alternative (h.sequenceWith he)

end Level.Legible

theorem legible_empty : Tree.empty.Legible := by
  show ¬ '\n' ∈ "".toList
  decide

theorem legible_around {bracket : Bracket} (he : e.Legible) : (bracket.around e).Legible := by
  cases bracket with
  | round => exact he
  | square => exact ⟨legible_empty, he⟩

/-! ### Steps -/

theorem legible_stepOperand (hnest : nest.Legible) (ht : Fine t) {s : Nest × Inside}
    (h : stepOperand nest t = some s) : s.1.Legible ∧ s.2.Legible := by
  have hopen : ∀ bracket : Bracket,
      (⟨{}, (bracket, nest.level) :: nest.brackets⟩ : Nest).Legible := by
    intro bracket
    refine ⟨Level.Legible.empty, fun b hb => ?_⟩
    rcases List.mem_cons.1 hb with rfl | hb
    · exact hnest.level
    · exact hnest.brackets b hb
  unfold stepOperand at h
  split at h
  · next hkind => cases h; exact ⟨hnest, ht.1 hkind⟩
  · next hkind => cases h; exact ⟨hnest, ht.2 hkind⟩
  · cases h; exact ⟨hnest, legible_empty⟩
  · cases h; exact ⟨hnest, trivial⟩
  · cases h; exact ⟨hnest, trivial⟩
  · cases h; exact ⟨hopen .round, trivial⟩
  · cases h; exact ⟨hopen .square, trivial⟩
  · cases h

theorem legible_closeBracket (hnest : nest.Legible) (he : e.Legible) {bracket : Bracket}
    {s : Nest × Inside} (h : closeBracket nest e bracket = some s) : s.1.Legible ∧ s.2.Legible := by
  unfold closeBracket at h
  split at h
  · next opener outer brackets hbrackets =>
      split at h
      · cases h
        refine ⟨⟨?_, fun b hb => ?_⟩, legible_around (hnest.level.alternativeWith he)⟩
        · exact hnest.brackets (opener, outer) (by rw [hbrackets]; exact List.mem_cons_self ..)
        · exact hnest.brackets b (by rw [hbrackets]; exact List.mem_cons_of_mem _ hb)
      · cases h
  · cases h

theorem legible_stepOperator (hnest : nest.Legible) (he : e.Legible) {s : Nest × Inside}
    (h : stepOperator nest e t = some s) : s.1.Legible ∧ s.2.Legible := by
  have hlevel := hnest.level
  unfold stepOperator at h
  dsimp only at h
  split at h
  · cases h
    refine ⟨⟨⟨hlevel.alternative, hlevel.sequence, ?_⟩, hnest.brackets⟩, trivial⟩
    rintro _ ⟨⟩
    exact hlevel.iterationWith he
  · cases h
    refine ⟨⟨⟨hlevel.alternative, ?_, Level.Legible.empty.iteration⟩, hnest.brackets⟩, trivial⟩
    rintro _ ⟨⟩
    exact hlevel.sequenceWith he
  · cases h
    refine ⟨⟨⟨?_, Level.Legible.empty.sequence, Level.Legible.empty.iteration⟩, hnest.brackets⟩,
      trivial⟩
    rintro _ ⟨⟩
    exact hlevel.alternativeWith he
  · exact legible_closeBracket hnest he h
  · exact legible_closeBracket hnest he h
  · cases h

theorem legible_stepInside (hnest : nest.Legible) (hstate : state.Legible) (ht : Fine t)
    {s : Nest × Inside} (h : stepInside nest state t = some s) : s.1.Legible ∧ s.2.Legible := by
  cases state with
  | operand => exact legible_stepOperand hnest ht h
  | action =>
      rw [stepInside] at h
      split at h
      · next hkind => cases h; exact ⟨hnest, ht.1 hkind⟩
      · cases h
  | opened =>
      rw [stepInside] at h
      split at h
      · next hkind => cases h; exact ⟨hnest, ht.1 hkind⟩
      · cases h
  | operator e => exact legible_stepOperator hnest hstate h

/-- One token keeps all that has been read legible. -/
theorem legible_step {s s' : State} (hs : s.Legible) (ht : Fine t) (h : s.step t = some s') :
    s'.Legible := by
  obtain ⟨records, place⟩ := s
  cases place with
  | between =>
      simp only [State.step] at h
      split at h
      · next hkind => cases h; exact ⟨hs.records, ht.1 hkind⟩
      · cases h; exact ⟨hs.records, trivial⟩
      · cases h
  | named name span =>
      simp only [State.step] at h
      split at h
      · cases h
        refine ⟨hs.records, hs.place, ⟨Level.Legible.empty, fun _ hb => ?_⟩, trivial⟩
        cases hb
      · cases h
  | inside name span nest state =>
      obtain ⟨hname, hnest, hstate⟩ := hs.place
      simp only [State.step] at h
      split at h
      · next body hend =>
          cases h
          refine ⟨fun record hrecord => ?_, trivial⟩
          rcases List.mem_cons.1 hrecord with rfl | hrecord
          · refine ⟨hname, ?_⟩
            unfold endRecord? at hend
            split at hend
            · cases hend
              exact hnest.level.alternativeWith hstate
            · cases hend
          · exact hs.records record hrecord
      · obtain ⟨next, hnext, rfl⟩ := Option.map_eq_some_iff.1 h
        exact ⟨hs.records, hname, legible_stepInside hnest hstate ht hnext⟩
  | finished => cases h

/-- Tokens keep all that has been read legible. -/
theorem legible_run {ts : List Token} (hts : ∀ t ∈ ts, Fine t) : ∀ {s s' : State}, s.Legible →
    s.run ts = .ok s' → s'.Legible := by
  induction ts with
  | nil =>
      intro s s' hs h
      cases h
      exact hs
  | cons t ts ih =>
      intro s s' hs h
      rw [State.run] at h
      split at h
      · next next hstep =>
          exact ih (fun t ht => hts t (List.mem_cons_of_mem _ ht))
            (legible_step hs (hts t (List.mem_cons_self ..)) hstep) h
      · cases h

end Reader

/-- **Every record of a text is legible.** -/
theorem legible_of_read {text : String} {document : Document} (h : Document.read text = .ok document) :
    ∀ record ∈ document, record.Legible := by
  unfold Document.read Document.ofLexing at h
  cases hrun : Reader.State.run {} (Token.lex text).tokens with
  | error fault =>
      rw [hrun] at h
      cases h
  | ok s =>
      rw [hrun] at h
      have hempty : ({} : Reader.State).Legible := ⟨fun _ hmem => (by cases hmem), trivial⟩
      have hs : s.Legible :=
        Reader.legible_run (Token.fine_of_mem_lexFrom 0 text.toList) hempty hrun
      cases hfault : (Token.lex text).fault with
      | some fault =>
          rw [hfault] at h
          cases h
      | none =>
          rw [hfault] at h
          change s.finish (Token.lastStop (Token.lex text).tokens) = .ok document at h
          rw [Reader.State.finish] at h
          split at h
          · cases h
            intro record hrecord
            exact hs.records record (List.mem_reverse.1 hrecord)
          · cases h

end RuleGrammar
