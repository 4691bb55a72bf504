import RuleGrammar.Proofs.DocumentTree
import RuleGrammar.Proofs.Reading

/-!
# What the reader accepts has a derivation

The operands that the reader carries along are the meanings of derivations, and the tokens that it has
taken are the tokens of these derivations with operators and opening brackets between them.  Each step
keeps that, and at the end of a document one derivation is left.

* `Level.Took`, `Nest.Took`, `Inside.Took`, `Place.Took`, `State.Took`: the tokens behind all that the
  reader carries along.
* `Took.step`, `Took.run`: one token, and a list of tokens.
* `read_eq_ok_iff`: a text is read exactly if it has tokens with a derivation, and as what that means.
-/

namespace RuleGrammar

open Token (Kind)

namespace Reader

variable {ts us : List Token} {t : Token} {e : Expr} {level : Level} {nest : Nest} {state : Inside}

/-! ### Waiting operands -/

/-- The tokens of a waiting operand with its operator behind it. -/
def Waits (rank : Phrase.Rank) (kind : Kind) : Option Expr → List Token → Prop
  | none, ts => ts = []
  | some e, ts => ∃ (d : PhraseTree rank) (t : Token), t.kind = kind ∧ ts = d.tokens ++ [t] ∧ d.meaning = e

/-- A waiting operand and its right partner make a derivation, whether or not there is an operand. -/
theorem Waits.join {rank tight : Phrase.Rank} {kind : Kind} {left : Option Expr}
    (node : Expr → Expr → Expr) (h : Waits rank kind left ts) (r : PhraseTree tight)
    (lift : ∃ d : PhraseTree rank, d.tokens = r.tokens ∧ d.meaning = r.meaning)
    (pair : ∀ (l : PhraseTree rank) (t : Token), t.kind = kind →
      ∃ d : PhraseTree rank, d.tokens = l.tokens ++ t :: r.tokens ∧ d.meaning = node l.meaning r.meaning) :
    ∃ d : PhraseTree rank, d.tokens = ts ++ r.tokens ∧ d.meaning = joined node left r.meaning := by
  cases left with
  | none =>
      rw [show ts = [] from h]
      exact lift
  | some e =>
      obtain ⟨l, t, ht, rfl, rfl⟩ := h
      obtain ⟨d, htokens, hmeaning⟩ := pair l t ht
      exact ⟨d, by rw [htokens, List.append_assoc, List.singleton_append], hmeaning⟩

/-- The tokens of an open construct in front of its last operand: alternatives, then elements of the
last alternative, then operands of the last element. -/
def Level.Took (level : Level) (ts : List Token) : Prop :=
  ∃ as ss is, ts = as ++ (ss ++ is) ∧ Waits .alternative .semicolon level.alternative as ∧
    Waits .sequence .comma level.sequence ss ∧ Waits .iteration .iterate level.iteration is

theorem Level.took_nil : ({} : Level).Took [] := ⟨[], [], [], rfl, rfl, rfl, rfl⟩

namespace Level.Took

/-- The iteration that ends with an atom. -/
theorem iteration (h : level.Took ts) (a : PhraseTree .atom) :
    ∃ as ss, ∃ d : PhraseTree .iteration, ts ++ a.tokens = as ++ (ss ++ d.tokens) ∧
      d.meaning = level.iterationWith a.meaning ∧ Waits .alternative .semicolon level.alternative as ∧
      Waits .sequence .comma level.sequence ss := by
  obtain ⟨as, ss, is, rfl, has, hss, his⟩ := h
  obtain ⟨d, htokens, hmeaning⟩ := his.join .iter a ⟨.ofAtom a, rfl, rfl⟩
    fun l t ht => ⟨.iter l t a ht, rfl, rfl⟩
  exact ⟨as, ss, d, by simp [htokens], hmeaning, has, hss⟩

/-- The sequence that ends with an atom. -/
theorem sequence (h : level.Took ts) (a : PhraseTree .atom) :
    ∃ as, ∃ d : PhraseTree .sequence, ts ++ a.tokens = as ++ d.tokens ∧
      d.meaning = level.sequenceWith a.meaning ∧ Waits .alternative .semicolon level.alternative as := by
  obtain ⟨as, ss, i, hi, himeaning, has, hss⟩ := h.iteration a
  obtain ⟨d, htokens, hmeaning⟩ := hss.join .seq i ⟨.ofIteration i, rfl, rfl⟩
    fun l t ht => ⟨.seq l t i ht, rfl, rfl⟩
  exact ⟨as, d, by rw [hi, htokens], by rw [hmeaning, himeaning]; rfl, has⟩

/-- The alternatives that end with an atom. -/
theorem alternative (h : level.Took ts) (a : PhraseTree .atom) :
    ∃ d : PhraseTree .alternative, d.tokens = ts ++ a.tokens ∧
      d.meaning = level.alternativeWith a.meaning := by
  obtain ⟨as, s, hs, hsmeaning, has⟩ := h.sequence a
  obtain ⟨d, htokens, hmeaning⟩ := has.join .alt s ⟨.ofSequence s, rfl, rfl⟩
    fun l t ht => ⟨.alt l t s ht, rfl, rfl⟩
  exact ⟨d, by rw [hs, htokens], by rw [hmeaning, hsmeaning]; rfl⟩

end Level.Took

/-! ### Open brackets -/

def Bracket.opener : Bracket → Kind
  | .round => .leftParen
  | .square => .leftBracket

/-- The tokens of the open constructs of a record, from the outside in. -/
inductive Nest.Took : Nest → List Token → Prop where
  | top {level : Level} {ts : List Token} (h : level.Took ts) : Nest.Took ⟨level, []⟩ ts
  | bracket {outer level : Level} {brackets : List (Bracket × Level)} {bracket : Bracket} {l : Token}
      {ts us : List Token} (houter : Nest.Took ⟨outer, brackets⟩ ts) (hl : l.kind = bracket.opener)
      (h : level.Took us) : Nest.Took ⟨level, (bracket, outer) :: brackets⟩ (ts ++ l :: us)

/-- The tokens of the innermost construct stand behind those of the constructs around it, and another
level may take its place. -/
theorem Nest.Took.split (h : nest.Took ts) : ∃ vs us, ts = vs ++ us ∧ nest.level.Took us ∧
    ∀ (level : Level) (us : List Token), level.Took us → Nest.Took ⟨level, nest.brackets⟩ (vs ++ us) := by
  cases h with
  | top h => exact ⟨[], ts, rfl, h, fun level us hus => .top hus⟩
  | @bracket outer level brackets b l vs us houter hl h =>
      refine ⟨vs ++ [l], us, by simp, h, fun level us hus => ?_⟩
      rw [List.append_assoc, List.singleton_append]
      exact .bracket houter hl hus

def Inside.Took (nest : Nest) : Inside → List Token → Prop
  | .operand, ts => nest.Took ts
  | .action, ts => ∃ us d, ts = us ++ [d] ∧ d.kind = .dollar ∧ nest.Took us
  | .opened, ts => ∃ us p, ts = us ++ [p] ∧ p.kind = .percent ∧ nest.Took us
  | .operator e, ts => ∃ us, ∃ a : PhraseTree .atom, ts = us ++ a.tokens ∧ a.meaning = e ∧ nest.Took us

/-! ### Steps inside a record -/

theorem took_stepOperand (h : nest.Took ts) {s : Nest × Inside} (hstep : stepOperand nest t = some s) :
    s.2.Took s.1 (ts ++ [t]) := by
  unfold stepOperand at hstep
  split at hstep
  · next hkind => cases hstep; exact ⟨ts, .name t hkind, rfl, rfl, h⟩
  · next hkind => cases hstep; exact ⟨ts, .quotation t hkind, rfl, rfl, h⟩
  · next hkind => cases hstep; exact ⟨ts, .empty t hkind, rfl, rfl, h⟩
  · next hkind => cases hstep; exact ⟨ts, t, rfl, hkind, h⟩
  · next hkind => cases hstep; exact ⟨ts, t, rfl, hkind, h⟩
  · next hkind =>
      cases hstep
      have hopener : t.kind = Bracket.round.opener := hkind
      exact Nest.Took.bracket h hopener Level.took_nil
  · next hkind =>
      cases hstep
      have hopener : t.kind = Bracket.square.opener := hkind
      exact Nest.Took.bracket h hopener Level.took_nil
  · cases hstep

theorem took_closeBracket {bracket : Bracket} (h : (Inside.operator e).Took nest ts)
    (ht : t.kind = bracket.closer) {s : Nest × Inside} (hstep : closeBracket nest e bracket = some s) :
    s.2.Took s.1 (ts ++ [t]) := by
  obtain ⟨us, a, rfl, rfl, hnest⟩ := h
  cases hnest with
  | top h => cases hstep
  | @bracket outer level brackets opener l vs ws houter hl hlevel =>
      simp only [closeBracket] at hstep
      split at hstep
      · next hsame =>
          cases hstep
          subst hsame
          obtain ⟨d, htokens, hmeaning⟩ := hlevel.alternative a
          -- the bracket and what it holds are an atom of the construct around it
          cases opener with
          | round =>
              exact ⟨vs, .group l d t hl ht, by simp [PhraseTree.tokens, htokens], hmeaning, houter⟩
          | square =>
              exact ⟨vs, .option l d t hl ht, by simp [PhraseTree.tokens, htokens],
                congrArg Tree.optional hmeaning, houter⟩
      · cases hstep

theorem took_stepOperator (h : (Inside.operator e).Took nest ts) {s : Nest × Inside}
    (hstep : stepOperator nest e t = some s) : s.2.Took s.1 (ts ++ [t]) := by
  have hclose : ∀ bracket : Bracket, t.kind = bracket.closer → closeBracket nest e bracket = some s →
      s.2.Took s.1 (ts ++ [t]) := fun _ hkind hstep => took_closeBracket h hkind hstep
  obtain ⟨us, a, rfl, rfl, hnest⟩ := h
  obtain ⟨vs, ws, rfl, hlevel, hfill⟩ := hnest.split
  unfold stepOperator at hstep
  dsimp only at hstep
  split at hstep
  · next hkind =>
      cases hstep
      obtain ⟨as, ss, d, htokens, hmeaning, has, hss⟩ := hlevel.iteration a
      have hwaits : Waits .iteration .iterate (some (nest.level.iterationWith a.meaning))
          (d.tokens ++ [t]) := ⟨d, t, hkind, rfl, hmeaning⟩
      rw [List.append_assoc vs, htokens, List.append_assoc vs, List.append_assoc as, List.append_assoc ss]
      exact hfill _ _ ⟨as, ss, _, rfl, has, hss, hwaits⟩
  · next hkind =>
      cases hstep
      obtain ⟨as, d, htokens, hmeaning, has⟩ := hlevel.sequence a
      have hwaits : Waits .sequence .comma (some (nest.level.sequenceWith a.meaning))
          (d.tokens ++ [t]) := ⟨d, t, hkind, rfl, hmeaning⟩
      rw [List.append_assoc vs, htokens, List.append_assoc vs, List.append_assoc as]
      exact hfill _ _ ⟨as, _, [], by rw [List.append_nil], has, hwaits, rfl⟩
  · next hkind =>
      cases hstep
      obtain ⟨d, htokens, hmeaning⟩ := hlevel.alternative a
      have hwaits : Waits .alternative .semicolon (some (nest.level.alternativeWith a.meaning))
          (d.tokens ++ [t]) := ⟨d, t, hkind, rfl, hmeaning⟩
      rw [List.append_assoc vs, ← htokens, List.append_assoc vs]
      exact hfill _ _ ⟨_, [], [], by rw [List.append_nil, List.append_nil], hwaits, rfl, rfl⟩
  · next hkind => exact hclose .round hkind hstep
  · next hkind => exact hclose .square hkind hstep
  · cases hstep

theorem took_stepInside (h : state.Took nest ts) {s : Nest × Inside}
    (hstep : stepInside nest state t = some s) : s.2.Took s.1 (ts ++ [t]) := by
  cases state with
  | operand => exact took_stepOperand h hstep
  | operator e => exact took_stepOperator h hstep
  | action =>
      obtain ⟨us, d, rfl, hd, hnest⟩ := h
      simp only [stepInside] at hstep
      split at hstep
      · next hkind =>
          cases hstep
          exact ⟨us, .action d t hd hkind, by simp [PhraseTree.tokens], rfl, hnest⟩
      · cases hstep
  | opened =>
      obtain ⟨us, p, rfl, hp, hnest⟩ := h
      simp only [stepInside] at hstep
      split at hstep
      · next hkind =>
          cases hstep
          exact ⟨us, .opened p t hp hkind, by simp [PhraseTree.tokens], rfl, hnest⟩
      · cases hstep

/-- A dot that ends a record stands behind a derivation of its rule. -/
theorem took_endRecord? (h : state.Took nest ts) (hend : endRecord? nest state t = some e) :
    t.kind = .dot ∧ ∃ d : PhraseTree .alternative, d.tokens = ts ∧ d.meaning = e := by
  unfold endRecord? at hend
  split at hend
  · next last hkind hbrackets =>
      cases hend
      obtain ⟨us, a, rfl, rfl, hnest⟩ := h
      obtain ⟨level, brackets⟩ := nest
      cases hbrackets
      cases hnest with
      | top hlevel => exact ⟨hkind, hlevel.alternative a⟩
  · cases hend

/-! ### Documents -/

def Place.Took : Place → List Token → Prop
  | .between, ts => ts = []
  | .named name span, ts => ∃ n : Token, n.kind = .ident ∧ name = n.text ∧ span = n.span ∧ ts = [n]
  | .inside name span nest state, ts => ∃ n c : Token, ∃ us, n.kind = .ident ∧ c.kind = .colon ∧
      name = n.text ∧ span = n.span ∧ ts = n :: c :: us ∧ state.Took nest us
  | .finished, ts => ∃ m : Token, m.kind = .finish ∧ ts = [m]

/-- The tokens that the reader has taken: those of derivations of the finished records, and those of
the place it is at. -/
def State.Took (s : State) (ts : List Token) : Prop :=
  ∃ (records : List RecordTree) (us : List Token), ts = records.flatMap RecordTree.tokens ++ us ∧
    records.map RecordTree.record = s.records.reverse ∧ s.place.Took us

theorem State.took_nil : ({} : State).Took [] := ⟨[], [], rfl, rfl, rfl⟩

/-- **Every step of the reader is a step of a derivation.** -/
theorem State.Took.step {s s' : State} (h : s.Took ts) (hstep : s.step t = some s') :
    s'.Took (ts ++ [t]) := by
  obtain ⟨done, place⟩ := s
  obtain ⟨records, us, rfl, hrecords, hplace⟩ := h
  rw [List.append_assoc]
  -- a step that ends no record stays behind the same records
  have hstay : ∀ place' : Place, place'.Took (us ++ [t]) →
      (⟨done, place'⟩ : State).Took (records.flatMap RecordTree.tokens ++ (us ++ [t])) :=
    fun place' h' => ⟨records, us ++ [t], rfl, hrecords, h'⟩
  cases place with
  | between =>
      cases (show us = [] from hplace)
      simp only [State.step] at hstep
      split at hstep
      · next hkind => cases hstep; exact hstay _ ⟨t, hkind, rfl, rfl, rfl⟩
      · next hkind => cases hstep; exact hstay _ ⟨t, hkind, rfl⟩
      · cases hstep
  | named name span =>
      obtain ⟨n, hn, rfl, rfl, rfl⟩ := hplace
      simp only [State.step] at hstep
      split at hstep
      · next hkind =>
          cases hstep
          exact hstay _ ⟨n, t, [], hn, hkind, rfl, rfl, rfl, .top Level.took_nil⟩
      · cases hstep
  | inside name span nest state =>
      obtain ⟨n, c, vs, hn, hc, rfl, rfl, rfl, hinside⟩ := hplace
      simp only [State.step] at hstep
      split at hstep
      · next body hend =>
          cases hstep
          obtain ⟨hdot, d, rfl, rfl⟩ := took_endRecord? hinside hend
          refine ⟨records ++ [⟨n, c, d, t, hn, hc, hdot⟩], [], ?_, ?_, rfl⟩
          · simp [RecordTree.tokens]
          · simp [hrecords, RecordTree.record]
      · obtain ⟨⟨nest', state'⟩, hinsideStep, rfl⟩ := Option.map_eq_some_iff.1 hstep
        exact hstay _ ⟨n, c, vs ++ [t], hn, hc, rfl, rfl, rfl, took_stepInside hinside hinsideStep⟩
  | finished => cases hstep

theorem State.Took.run (us : List Token) : ∀ {s s' : State} {ts : List Token}, s.Took ts →
    s.run us = .ok s' → s'.Took (ts ++ us) := by
  induction us with
  | nil =>
      intro s s' ts h hrun
      cases hrun
      rwa [List.append_nil]
  | cons u us ih =>
      intro s s' ts h hrun
      rw [State.run] at hrun
      split at hrun
      · next next hstep =>
          have hrest := ih (h.step hstep) hrun
          rwa [List.append_assoc, List.singleton_append] at hrest
      · cases hrun

/-- Where a document may end, the tokens have a derivation as a document. -/
theorem State.Took.exists_documentTree {s : State} (h : s.Took ts) (hend : s.place.mayEnd = true) :
    ∃ d : DocumentTree, d.tokens = ts ∧ d.document = s.records.reverse := by
  obtain ⟨done, place⟩ := s
  obtain ⟨records, us, rfl, hrecords, hplace⟩ := h
  cases place with
  | between =>
      cases (show us = [] from hplace)
      exact ⟨⟨records, none⟩, rfl, hrecords⟩
  | finished =>
      obtain ⟨m, hm, rfl⟩ := hplace
      exact ⟨⟨records, some ⟨m, hm⟩⟩, rfl, hrecords⟩
  | named name span => cases hend
  | inside name span nest state => cases hend

end Reader

/-- **A text is read exactly if it is cut into tokens without a fault and these have a derivation, and
what is read is what the derivation means.** -/
theorem read_eq_ok_iff {text : String} {document : Document} : Document.read text = .ok document ↔
    (Token.lex text).fault = none ∧
      ∃ d : DocumentTree, d.tokens = (Token.lex text).tokens ∧ d.document = document := by
  constructor
  · intro h
    unfold Document.read Document.ofLexing at h
    cases hrun : Reader.State.run {} (Token.lex text).tokens with
    | error fault =>
        rw [hrun] at h
        cases h
    | ok s =>
        rw [hrun] at h
        cases hfault : (Token.lex text).fault with
        | some fault =>
            rw [hfault] at h
            cases h
        | none =>
            rw [hfault] at h
            change s.finish (Token.lastStop (Token.lex text).tokens) = .ok document at h
            rw [Reader.State.finish] at h
            split at h
            · next hend =>
                cases h
                exact ⟨rfl, (Reader.State.took_nil.run _ hrun).exists_documentTree hend⟩
            · cases h
  · rintro ⟨hfault, d, htokens, rfl⟩
    exact Reader.read_of_documentPhrase hfault (htokens ▸ d.phrase)

end RuleGrammar
