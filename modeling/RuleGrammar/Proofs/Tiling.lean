import Mathlib.Data.List.Chain
import Mathlib.Data.String.Basic
import RuleGrammar.Proofs.Location

/-!
# Tokens and gaps make up the text

The lexer is called again and again; each call skips a gap and reads a token, and the calls end at a fault
or at the end of the text.  What the calls skip and what they read lies side by side in the text: nothing
is lost, nothing is read twice, and between the tokens there are only white space and remarks.

* `spanBlank_spec`: what is skipped in front of a token or of the end.
* `Cursor.next`: one call of the lexer; `Cursor.Reads`: what a call that reads a token does.
* `Cursor.Yields`: all calls up to the first fault or the end; `Cursor.yields_iff`.
* `Tiling text offset lexing`: tokens and gaps lie side by side in a text from a place on.
* `Cursor.Yields.tiling`: they do so wherever the calls begin.
* `lex_tiles_text`: they do so in every text.
-/

namespace RuleGrammar.Token

/-! ### Gaps -/

/-- Blank up to the end of the text, and a gap if something stands behind. -/
structure BlankBefore (rest cs : List Char) : Prop where
  blank : Blank cs
  gap : rest ≠ [] → Gap cs

/-- The rest of a remark, with what is blank behind its line break, or up to the end of the text. -/
def RemarkBefore (rest cs : List Char) : Prop :=
  ∃ body, ¬ '\n' ∈ body ∧
    ((∃ blank, cs = body ++ '\n' :: blank ∧ BlankBefore rest blank) ∨ (cs = body ∧ rest = []))

variable {rest cs : List Char} {c : Char}

theorem BlankBefore.white (hc : Text.isWhiteSpace c = true) (h : BlankBefore rest cs) :
    BlankBefore rest (c :: cs) :=
  ⟨.white hc h.blank, fun hrest => .white hc (h.gap hrest)⟩

/-- A slash in front of a remark that begins with the other slash. -/
theorem RemarkBefore.slash (h : RemarkBefore rest ('/' :: cs)) :
    BlankBefore rest ('/' :: '/' :: cs) := by
  obtain ⟨body, hbody, ⟨blank, hcs, hblank⟩ | ⟨rfl, hrest⟩⟩ := h
  · cases body with
    | nil => cases hcs
    | cons c body =>
        obtain ⟨rfl, rfl⟩ := List.cons.inj hcs
        have hline : ¬ '\n' ∈ body := fun hmem => hbody (List.mem_cons_of_mem _ hmem)
        exact ⟨.remark hline hblank.blank, fun hrest => .remark hline (hblank.gap hrest)⟩
  · have hline : ¬ '\n' ∈ cs := fun hmem => hbody (List.mem_cons_of_mem _ hmem)
    exact ⟨.lastRemark hline, fun hne => absurd hrest hne⟩

theorem RemarkBefore.cons (hc : c ≠ '\n') (h : RemarkBefore rest cs) :
    RemarkBefore rest (c :: cs) := by
  obtain ⟨body, hbody, hcs⟩ := h
  refine ⟨c :: body, ?_, ?_⟩
  · rw [List.mem_cons, not_or]
    exact ⟨hc.symm, hbody⟩
  · rcases hcs with ⟨blank, rfl, hblank⟩ | ⟨rfl, hrest⟩
    · exact Or.inl ⟨blank, rfl, hblank⟩
    · exact Or.inr ⟨rfl, hrest⟩

/-- **What is skipped is blank.**  Both ways to begin, outside and inside a remark, are proved at once,
since each of them leads to the other. -/
theorem spanBlank_spec (cs : List Char) :
    BlankBefore (spanBlank false cs).2 (spanBlank false cs).1 ∧
      RemarkBefore (spanBlank true cs).2 (spanBlank true cs).1 := by
  induction cs with
  | nil => exact ⟨⟨.nil, fun _ => .nil⟩, [], List.not_mem_nil, Or.inr ⟨rfl, rfl⟩⟩
  | cons c cs ih =>
      obtain ⟨hblank, hremark⟩ := ih
      constructor
      · rw [spanBlank, if_neg Bool.false_ne_true]
        split
        · next hc => exact hblank.white hc
        · split
          · next hslash =>
              rw [Bool.and_eq_true, beq_iff_eq, beq_iff_eq] at hslash
              obtain ⟨rfl, hhead⟩ := hslash
              obtain ⟨cs, rfl⟩ : ∃ tail, cs = '/' :: tail := List.head?_eq_some_iff.1 hhead
              exact RemarkBefore.slash hremark
          · exact ⟨.nil, fun _ => .nil⟩
      · rw [spanBlank, if_pos rfl]
        by_cases hc : c = '\n'
        · subst hc
          exact ⟨[], List.not_mem_nil, Or.inl ⟨_, rfl, hblank⟩⟩
        · rw [bne_iff_ne.2 hc]
          exact hremark.cons hc

/-- A name that was read is not continued behind it. -/
theorem isNameRest_of_lexeme_ident {d : Char} {text : List Char}
    (h : lexeme c cs = .read .ident text rest) (hd : d ∈ rest.head?) : isNameRest d = false := by
  have hrest : rest = cs.dropWhile isNameRest := by
    rw [lexeme] at h
    split at h
    · split at h <;> cases h
    · split at h
      · next hsign =>
          cases h
          unfold punctuation? at hsign
          split at hsign <;> cases hsign
      · split at h
        · dsimp only at h
          split at h
          · next hdrop =>
              split at h
              · cases h
              · cases h
                exact hdrop.symm
          · cases h
            rfl
        · cases h
  have hhead := List.head?_dropWhile_not isNameRest cs
  rw [← hrest, hd] at hhead
  exact hhead

/-! ### One call of the lexer -/

/-- How far the lexer has come: a byte offset, and what it has not read yet. -/
structure Cursor where
  offset : Nat
  rest : List Char

variable {s s' : Cursor} {gap : List Char} {t : Token} {lexing : Lexing} {text : String}

namespace Cursor

/-- One call of the lexer: nothing at the end of the text; otherwise what is wrong, or the next token
and how far the lexer has come with it. -/
def next (s : Cursor) : Option (Except Fault (Token × Cursor)) :=
  match spanBlank false s.rest with
  | (_, []) => none
  | (blank, c :: tail) =>
      let start := s.offset + byteLength blank
      match lexeme c tail with
      | .read kind text rest =>
          some (.ok (ofLexeme start kind text, ⟨start + byteLength text, rest⟩))
      | .unclosed text => some (.error ⟨.unclosedString, ⟨start, start + byteLength text⟩⟩)
      | .stray c => some (.error ⟨.invalidChar c, ⟨start, start + c.utf8Size⟩⟩)

/-- What a call that reads a token does: it skips a gap, and the token is what stands behind. -/
structure Reads (s : Cursor) (gap : List Char) (t : Token) (s' : Cursor) : Prop where
  skipped : Gap gap
  text : s.rest = gap ++ (t.text.toList ++ s'.rest)
  nonempty : t.text.toList ≠ []
  start : t.span.start = s.offset + byteLength gap
  stop : t.span.stop = t.span.start + byteLength t.text.toList
  offset : s'.offset = t.span.stop
  parted : t.kind = .ident → ∀ c ∈ s'.rest.head?, isNameRest c = false

/-- **What one call does.**  At the end of the text only blanks are left; a fault and a token stand behind a
gap. -/
theorem next_spec (s : Cursor) : match s.next with
    | none => Blank s.rest
    | some (.error f) =>
        ∃ gap rest, Gap gap ∧ s.rest = gap ++ rest ∧ f.span.start = s.offset + byteLength gap
    | some (.ok (t, s')) => ∃ gap, s.Reads gap t s' := by
  obtain ⟨hblank, hgap⟩ := (spanBlank_spec s.rest).1
  have hrest := spanBlank_append false s.rest
  unfold next
  match hb : spanBlank false s.rest with
  | (blank, []) =>
      rw [hb, List.append_nil] at hrest
      rw [hb] at hblank
      exact hrest ▸ hblank
  | (blank, c :: tail) =>
      rw [hb] at hgap hrest
      have hskipped : Gap blank := hgap (List.cons_ne_nil c tail)
      dsimp only
      cases hread : lexeme c tail with
      | unclosed text => exact ⟨blank, c :: tail, hskipped, hrest.symm, rfl⟩
      | stray d => exact ⟨blank, c :: tail, hskipped, hrest.symm, rfl⟩
      | read kind text rest =>
          have htext : (ofLexeme (s.offset + byteLength blank) kind text).text.toList = text :=
            String.toList_ofList
          refine ⟨blank, hskipped, ?_, ?_, rfl, ?_, rfl, ?_⟩
          · rw [htext, lexeme_append hread, hrest]
          · rw [htext]
            exact lexeme_text_ne_nil hread
          · rw [htext]
            rfl
          · rintro rfl d hd
            exact isNameRest_of_lexeme_ident hread hd

theorem exists_reads_of_next (h : s.next = some (.ok (t, s'))) : ∃ gap, s.Reads gap t s' := by
  have hspec := s.next_spec
  rwa [h] at hspec

/-! ### All calls -/

/-- What the calls yield up to the first fault or the end of the text. -/
inductive Yields : Cursor → Lexing → Prop where
  | stop {s : Cursor} (h : s.next = none) : Yields s ⟨[], none⟩
  | fail {s : Cursor} {f : Fault} (h : s.next = some (.error f)) : Yields s ⟨[], some f⟩
  | more {s s' : Cursor} {t : Token} {lexing : Lexing} (h : s.next = some (.ok (t, s')))
      (hmore : Yields s' lexing) : Yields s ⟨t :: lexing.tokens, lexing.fault⟩

/-- The tokens from a place on are those of one call and of the calls behind it. -/
theorem lexFrom_eq_next (s : Cursor) : lexFrom s.offset s.rest =
    match s.next with
    | none => ⟨[], none⟩
    | some (.error f) => ⟨[], some f⟩
    | some (.ok (t, s')) =>
        ⟨t :: (lexFrom s'.offset s'.rest).tokens, (lexFrom s'.offset s'.rest).fault⟩ := by
  rw [lexFrom_eq]
  unfold next
  match hb : spanBlank false s.rest with
  | (blank, []) => rfl
  | (blank, c :: tail) =>
      dsimp only
      rw [lexHead]
      cases lexeme c tail with
      | read kind text rest => rfl
      | unclosed text => rfl
      | stray d => rfl

/-- A call that reads a token leaves less to read. -/
theorem Reads.length_rest_lt (h : s.Reads gap t s') : s'.rest.length < s.rest.length := by
  have hpos := List.length_pos_iff.2 h.nonempty
  rw [h.text, List.length_append, List.length_append]
  omega

/-- The calls come to an end.  By recursion on what is left to read. -/
theorem yields_lexFrom (s : Cursor) : s.Yields (lexFrom s.offset s.rest) := by
  rw [lexFrom_eq_next]
  match hnext : s.next with
  | none => exact .stop hnext
  | some (.error f) => exact .fail hnext
  | some (.ok (t, s')) =>
      obtain ⟨gap, hreads⟩ := exists_reads_of_next hnext
      have hlt := hreads.length_rest_lt
      exact .more hnext (yields_lexFrom s')
termination_by s.rest.length

/-- **The calls come to an end, and in one way only.** -/
theorem yields_iff : s.Yields lexing ↔ lexing = lexFrom s.offset s.rest := by
  refine ⟨fun h => ?_, fun h => h ▸ yields_lexFrom s⟩
  induction h with
  | stop hnext => rw [lexFrom_eq_next, hnext]
  | fail hnext => rw [lexFrom_eq_next, hnext]
  | more hnext _ ih => rw [lexFrom_eq_next, hnext, ih]

end Cursor

/-! ### Places in a text -/

theorem byteLength_eq_utf8Len (cs : List Char) : byteLength cs = String.utf8Len cs := by
  induction cs with
  | nil => rfl
  | cons c cs ih => rw [byteLength, String.utf8Len_cons, ih, Nat.add_comm]

/-- The characters of a text between two byte offsets. -/
def stretch (text : String) (start stop : Nat) : List Char :=
  (String.Pos.Raw.extract text ⟨start⟩ ⟨stop⟩).toList

namespace Cursor

def At (s : Cursor) (text : String) : Prop :=
  ∃ before, text.toList = before ++ s.rest ∧ s.offset = byteLength before

variable {middle after : List Char}

theorem At.isValid (h : s.At text) : String.Pos.Raw.IsValid text ⟨s.offset⟩ := by
  obtain ⟨before, htext, hoffset⟩ := h
  rw [hoffset]
  exact isValid_of_append htext

/-- The character at the place of the cursor is the next one to be read. -/
theorem At.get?_eq (h : s.At text) : String.Pos.Raw.get? text ⟨s.offset⟩ = s.rest.head? := by
  obtain ⟨before, htext, hoffset⟩ := h
  have hget := String.get?_of_valid before s.rest
  rwa [← htext, String.ofList_toList, ← byteLength_eq_utf8Len, ← hoffset] at hget

/-- What is to be read stands in the text from the place of the cursor on. -/
theorem At.stretch_eq (h : s.At text) (hrest : s.rest = middle ++ after) :
    stretch text s.offset (s.offset + byteLength middle) = middle := by
  obtain ⟨before, htext, hoffset⟩ := h
  have hextract := String.extract_of_valid before middle after
  rw [List.append_assoc, ← hrest, ← htext, String.ofList_toList, ← byteLength_eq_utf8Len,
    ← byteLength_eq_utf8Len, ← hoffset] at hextract
  rw [stretch, hextract, String.toList_ofList]

theorem At.advance (h : s.At text) (hrest : s.rest = middle ++ after) :
    At ⟨s.offset + byteLength middle, after⟩ text := by
  obtain ⟨before, htext, hoffset⟩ := h
  refine ⟨before ++ middle, ?_, ?_⟩
  · rw [htext, hrest, List.append_assoc]
  · rw [byteLength_append, ← hoffset]

theorem At.offset_add (h : s.At text) : s.offset + byteLength s.rest = text.utf8ByteSize := by
  obtain ⟨before, htext, hoffset⟩ := h
  rw [hoffset, ← byteLength_append, ← htext, ← utf8ByteSize_ofList, String.ofList_toList]

/-- A token that is read begins and ends at places of the text. -/
theorem Reads.at (h : s.Reads gap t s') (hs : s.At text) :
    At ⟨t.span.start, t.text.toList ++ s'.rest⟩ text ∧ s'.At text := by
  have hstart : At ⟨t.span.start, t.text.toList ++ s'.rest⟩ text := by
    rw [h.start]
    exact hs.advance h.text
  refine ⟨hstart, ?_⟩
  have hstop : At ⟨t.span.start + byteLength t.text.toList, s'.rest⟩ text := hstart.advance rfl
  rwa [← h.stop, ← h.offset] at hstop

theorem Reads.start_lt_stop (h : s.Reads gap t s') : t.span.start < t.span.stop := by
  obtain ⟨c, cs, htext⟩ := List.exists_cons_of_ne_nil h.nonempty
  have hpos := c.utf8Size_pos
  rw [h.stop, htext, byteLength]
  omega

end Cursor

/-! ### Tokens and gaps side by side -/

/-- Where the last token ends; the offset if there is none. -/
def Lexing.stop (lexing : Lexing) (offset : Nat) : Nat :=
  (lexing.tokens.map (·.span.stop)).getLastD offset

/-- From a byte offset on, a text is made up of tokens with gaps between them. -/
structure Tiling (text : String) (offset : Nat) (lexing : Lexing) : Prop where
  bounded : ∀ t ∈ lexing.tokens, t.span.start < t.span.stop ∧
    String.Pos.Raw.IsValid text ⟨t.span.start⟩ ∧ String.Pos.Raw.IsValid text ⟨t.span.stop⟩
  spelled : ∀ t ∈ lexing.tokens, stretch text t.span.start t.span.stop = t.text.toList
  above : ∀ t ∈ lexing.tokens, offset ≤ t.span.start
  ascending : lexing.tokens.Pairwise fun a b =>
    a.span.start < b.span.start ∧ a.span.stop ≤ b.span.start
  first : ∀ t ∈ lexing.tokens.head?, Gap (stretch text offset t.span.start)
  between : lexing.tokens.IsChain fun a b => Gap (stretch text a.span.stop b.span.start)
  last : lexing.fault = none → Blank (stretch text (lexing.stop offset) text.utf8ByteSize)
  fault : ∀ f ∈ lexing.fault, lexing.stop offset ≤ f.span.start ∧
    Gap (stretch text (lexing.stop offset) f.span.start)
  parted : ∀ t ∈ lexing.tokens, t.kind = .ident →
    ∀ c ∈ String.Pos.Raw.get? text ⟨t.span.stop⟩, isNameRest c = false

/-- No tokens. -/
theorem Tiling.nil {text : String} {offset : Nat} {fault : Option Fault}
    (hlast : fault = none → Blank (stretch text offset text.utf8ByteSize))
    (hfault : ∀ f ∈ fault, offset ≤ f.span.start ∧ Gap (stretch text offset f.span.start)) :
    Tiling text offset ⟨[], fault⟩ where
  bounded _ ht := by cases ht
  spelled _ ht := by cases ht
  above _ ht := by cases ht
  ascending := .nil
  first _ ht := by cases ht
  between := .nil
  last := hlast
  fault := hfault
  parted _ ht := by cases ht

namespace Cursor

/-- A token that one call reads, in front of those of further calls. -/
theorem Reads.tiling (h : s.Reads gap t s') (hs : s.At text) (hmore : Tiling text s'.offset lexing) :
    Tiling text s.offset ⟨t :: lexing.tokens, lexing.fault⟩ := by
  obtain ⟨hstart, hstop⟩ := h.at hs
  have hlt := h.start_lt_stop
  have hgap : stretch text s.offset t.span.start = gap := by
    rw [h.start]
    exact hs.stretch_eq h.text
  have hbelow : s.offset ≤ t.span.start := by
    rw [h.start]
    exact Nat.le_add_right _ _
  have habove : ∀ u ∈ lexing.tokens, t.span.stop ≤ u.span.start := by
    rw [← h.offset]
    exact hmore.above
  have hend : Lexing.stop ⟨t :: lexing.tokens, lexing.fault⟩ s.offset = lexing.stop s'.offset := by
    rw [Lexing.stop, Lexing.stop, List.map_cons, List.getLastD_cons, h.offset]
  constructor
  case bounded =>
    refine List.forall_mem_cons.2 ⟨⟨hlt, hstart.isValid, ?_⟩, hmore.bounded⟩
    rw [← h.offset]
    exact hstop.isValid
  case spelled =>
    refine List.forall_mem_cons.2 ⟨?_, hmore.spelled⟩
    rw [h.stop]
    exact hstart.stretch_eq rfl
  case above =>
    refine List.forall_mem_cons.2 ⟨hbelow, fun u hu => ?_⟩
    have hu := habove u hu
    omega
  case ascending =>
    refine List.pairwise_cons.2 ⟨fun u hu => ?_, hmore.ascending⟩
    have hu := habove u hu
    omega
  case first =>
    rintro u ⟨⟩
    rw [hgap]
    exact h.skipped
  case between =>
    refine List.isChain_cons.2 ⟨fun u hu => ?_, hmore.between⟩
    rw [← h.offset]
    exact hmore.first u hu
  case last =>
    rw [hend]
    exact hmore.last
  case fault =>
    rw [hend]
    exact hmore.fault
  case parted =>
    refine List.forall_mem_cons.2 ⟨fun hkind c hc => ?_, hmore.parted⟩
    rw [← h.offset, hstop.get?_eq] at hc
    exact h.parted hkind c hc

/-- **Tokens and gaps lie side by side from the place on at which the calls begin.**  By induction on the
calls; each of them moves the cursor to another place of the text. -/
theorem Yields.tiling (h : s.Yields lexing) (hs : s.At text) : Tiling text s.offset lexing := by
  induction h with
  | @stop s hnext =>
      have hblank := s.next_spec
      rw [hnext] at hblank
      refine Tiling.nil (fun _ => ?_) (fun f hf => by cases hf)
      rw [← hs.offset_add, hs.stretch_eq (List.append_nil _).symm]
      exact hblank
  | @fail s f hnext =>
      have hspec := s.next_spec
      rw [hnext] at hspec
      obtain ⟨gap, rest, hgap, hrest, hstart⟩ := hspec
      refine Tiling.nil (fun hnone => by cases hnone) ?_
      rintro _ ⟨⟩
      rw [hstart, hs.stretch_eq hrest]
      exact ⟨Nat.le_add_right _ _, hgap⟩
  | @more s s' t lexing hnext _ ih =>
      obtain ⟨gap, hreads⟩ := exists_reads_of_next hnext
      exact hreads.tiling hs (ih (hreads.at hs).2)

end Cursor

/-- **The lexer loses nothing and invents nothing.**  Called again and again from the beginning of a text,
it comes to its end or to a fault in one way only, and what it yields are the tokens of the text.  Their
spans are not empty, lie between characters and follow each other without overlap; each token has the text
of its span; in front of the first token, between two tokens and behind the last one there are only white
space and remarks; and no name goes on behind its token. -/
theorem lex_tiles_text (text : String) :
    (∀ lexing, Cursor.Yields ⟨0, text.toList⟩ lexing ↔ lexing = lex text) ∧ Tiling text 0 (lex text) := by
  have hstart : Cursor.At ⟨0, text.toList⟩ text := ⟨[], rfl, rfl⟩
  exact ⟨fun lexing => Cursor.yields_iff, (Cursor.yields_iff.2 rfl).tiling hstart⟩

/-- A letter of two bytes, a remark, and a quotation on the next line. -/
example : (lex "Ä //x\n'b'").tokens.map Token.span = [⟨0, 2⟩, ⟨7, 10⟩] := by
  decide +kernel

end RuleGrammar.Token
