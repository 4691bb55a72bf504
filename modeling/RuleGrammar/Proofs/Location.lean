import Mathlib.Data.List.DropRight
import RuleGrammar.Proofs.Lexing

/-!
# Where tokens and faults stand in a text

Offsets count bytes and columns count characters, so a place in a text is a way to cut the text in two.
Every token and every fault of the lexer covers a stretch that is cut out of the text at two such
places, and the line and the column of a place are told by what stands in front of it.

* `Span.Covers span offset cs`: the span is that of a stretch of `cs`, which begins at `offset`.
* `covers_lexFrom`: the spans of tokens and of the fault of the lexer.
* `Fault.behind`, `position_append`: the line and the column of a place by the line breaks in front of it.
-/

namespace RuleGrammar

namespace Token

theorem byteLength_append (xs ys : List Char) :
    byteLength (xs ++ ys) = byteLength xs + byteLength ys := by
  induction xs with
  | nil => exact (Nat.zero_add _).symm
  | cons c xs ih => rw [List.cons_append, byteLength, byteLength, ih, Nat.add_assoc]

/-- Bytes are counted as they are in a string. -/
theorem utf8ByteSize_ofList (cs : List Char) : (String.ofList cs).utf8ByteSize = byteLength cs := by
  induction cs with
  | nil => rfl
  | cons c cs ih =>
      rw [← List.singleton_append, String.ofList_append, String.utf8ByteSize_append, ih,
        ← String.singleton_eq_ofList, String.utf8ByteSize_singleton]
      rfl

/-- The place behind a part of a text lies between two characters. -/
theorem isValid_of_append {text : String} {before after : List Char}
    (h : text.toList = before ++ after) : String.Pos.Raw.IsValid text ⟨byteLength before⟩ := by
  refine String.Pos.Raw.isValid_iff_exists_append.2 ⟨String.ofList before, String.ofList after, ?_, ?_⟩
  · rw [← String.ofList_append, ← h, String.ofList_toList]
  · rw [← utf8ByteSize_ofList]
    rfl

end Token

open Token (byteLength byteLength_append spanBlank spanQuoted lexFrom lexHead Lexing)

/-! ### Stretches of a text -/

/-- The span is that of a stretch of the text, whose first character stands at a byte offset. -/
def Span.Covers (span : Span) (offset : Nat) (cs : List Char) : Prop :=
  ∃ before middle after, cs = before ++ (middle ++ after) ∧
    span = ⟨offset + byteLength before, offset + byteLength before + byteLength middle⟩

theorem Span.covers_append (offset : Nat) (before middle after : List Char) :
    Span.Covers ⟨offset + byteLength before, offset + byteLength before + byteLength middle⟩ offset
      (before ++ (middle ++ after)) :=
  ⟨before, middle, after, rfl, rfl⟩

/-- A stretch of a part of a text is a stretch of the text. -/
theorem Span.Covers.append_left {span : Span} {offset : Nat} {xs ys : List Char}
    (h : span.Covers (offset + byteLength xs) ys) : span.Covers offset (xs ++ ys) := by
  obtain ⟨before, middle, after, rfl, rfl⟩ := h
  refine ⟨xs ++ before, middle, after, by rw [List.append_assoc], ?_⟩
  rw [byteLength_append, Nat.add_assoc offset]

/-- The end of a stretch is an empty stretch. -/
theorem Span.Covers.atStop {span : Span} {offset : Nat} {cs : List Char} (h : span.Covers offset cs) :
    Span.Covers ⟨span.stop, span.stop⟩ offset cs := by
  obtain ⟨before, middle, after, rfl, rfl⟩ := h
  refine ⟨before ++ middle, [], after, by rw [List.append_assoc, List.nil_append], ?_⟩
  rw [byteLength_append, Nat.add_assoc offset]
  rfl

/-! ### The lexer -/

/-- What is read of a quotation that is not closed stands at the head of the text. -/
theorem Token.spanQuoted_isPrefix (quote : Char) (cs : List Char) : ∀ escaped : Bool,
    (spanQuoted quote escaped cs).1 <+: cs := by
  induction cs with
  | nil => exact fun _ => List.nil_prefix
  | cons c cs ih =>
      intro escaped
      rw [spanQuoted]
      split
      · exact List.cons_prefix_cons.2 ⟨rfl, ih _⟩
      · split
        · exact List.cons_prefix_cons.2 ⟨rfl, List.nil_prefix⟩
        · split
          · exact List.nil_prefix
          · exact List.cons_prefix_cons.2 ⟨rfl, ih _⟩

/-- What stands at the head of a text is a token, a part of the text that opens a quotation, or a
character that begins no token. -/
theorem Token.lexeme_cases (c : Char) (cs : List Char) :
    (∃ kind text rest, lexeme c cs = .read kind text rest) ∨
      (∃ text, lexeme c cs = .unclosed text ∧ text <+: c :: cs) ∨ lexeme c cs = .stray c := by
  unfold lexeme
  split
  · split
    · exact Or.inl ⟨_, _, _, rfl⟩
    · next body hspan =>
        have hbody := spanQuoted_isPrefix c cs false
        rw [hspan] at hbody
        exact Or.inr (Or.inl ⟨_, rfl, List.cons_prefix_cons.2 ⟨rfl, hbody⟩⟩)
  · split
    · exact Or.inl ⟨_, _, _, rfl⟩
    · split
      · refine Or.inl ?_
        dsimp only
        split
        · split
          · exact ⟨_, _, _, rfl⟩
          · exact ⟨_, _, _, rfl⟩
        · exact ⟨_, _, _, rfl⟩
      · exact Or.inr (Or.inr rfl)

/-- The spans of a lexed text are those of stretches of it. -/
structure Token.Lexing.Covers (lexing : Lexing) (offset : Nat) (cs : List Char) : Prop where
  token : ∀ t ∈ lexing.tokens, t.span.Covers offset cs
  fault : ∀ f ∈ lexing.fault, f.span.Covers offset cs

theorem Token.Lexing.Covers.append_left {lexing : Lexing} {offset : Nat} {xs ys : List Char}
    (h : lexing.Covers (offset + byteLength xs) ys) : lexing.Covers offset (xs ++ ys) :=
  ⟨fun t ht => (h.token t ht).append_left, fun f hf => (h.fault f hf).append_left⟩

/-- **Every token and the fault of the lexer cover a stretch of the text.**  By recursion on what
stands behind a token, as the lexer goes on. -/
theorem covers_lexFrom (offset : Nat) (cs : List Char) : (lexFrom offset cs).Covers offset cs := by
  have hcs := Token.spanBlank_append false cs
  rw [Token.lexFrom_eq]
  match hb : spanBlank false cs with
  | (blank, []) => exact ⟨fun t ht => (by cases ht), fun f hf => (by cases hf)⟩
  | (blank, c :: tail) =>
      rw [hb] at hcs
      rw [← hcs]
      refine Token.Lexing.Covers.append_left ?_
      rcases Token.lexeme_cases c tail with ⟨kind, text, rest, hread⟩ | ⟨text, hunclosed, hpart⟩ | hstray
      · have hlt := Token.length_rest_lt hb hread
        have hrest := (covers_lexFrom (offset + byteLength blank + byteLength text) rest).append_left
        rw [lexHead, hread, ← Token.lexeme_append hread]
        refine ⟨fun t ht => ?_, hrest.fault⟩
        rcases List.mem_cons.1 ht with rfl | ht
        · exact Span.covers_append _ [] text rest
        · exact hrest.token t ht
      · obtain ⟨rest, hrest⟩ := hpart
        rw [lexHead, hunclosed, ← hrest]
        refine ⟨fun t ht => (by cases ht), ?_⟩
        rintro f ⟨⟩
        exact Span.covers_append _ [] text rest
      · rw [lexHead, hstray]
        refine ⟨fun t ht => (by cases ht), ?_⟩
        rintro f ⟨⟩
        exact Span.covers_append _ [] [c] tail
termination_by cs.length

/-! ### Lines and columns -/

namespace Fault

/-- The line and the column, both from one, of the place behind a text: the line breaks in it, and the
characters behind the last of them. -/
def behind (before : List Char) : Nat × Nat :=
  (1 + before.count '\n', 1 + (before.rtakeWhile (· ≠ '\n')).length)

def next (position : Nat × Nat) (c : Char) : Nat × Nat :=
  if c = '\n' then (position.1 + 1, 1) else (position.1, position.2 + 1)

/-- The characters in front of a place are gone through one by one. -/
theorem go_append (xs ys : List Char) : ∀ line column : Nat,
    position.go (byteLength xs) line column (xs ++ ys) = xs.foldl next (line, column) := by
  induction xs with
  | nil =>
      intro line column
      cases ys with
      | nil => rfl
      | cons c ys => rfl
  | cons c xs ih =>
      intro line column
      have hpos : byteLength (c :: xs) ≠ 0 := by
        have := c.utf8Size_pos
        rw [byteLength]
        omega
      have hrest : byteLength (c :: xs) - c.utf8Size = byteLength xs := Nat.add_sub_cancel_left ..
      rw [List.cons_append, position.go, if_neg hpos, hrest, List.foldl_cons, next]
      split
      · exact ih _ _
      · exact ih _ _

theorem foldl_next (xs : List Char) : xs.foldl next (1, 1) = behind xs := by
  induction xs using List.reverseRecOn with
  | nil => rfl
  | append_singleton xs c ih =>
      rw [List.foldl_append, ih, List.foldl_cons, List.foldl_nil, next, behind, behind, List.count_append]
      split
      · next hc =>
          rw [List.rtakeWhile_concat_neg _ _ _ (by simp [hc]), hc]
          rfl
      · next hc =>
          rw [List.rtakeWhile_concat_pos _ _ _ (by simp [hc]), List.count_singleton,
            if_neg (by simpa using hc), List.length_append, List.length_singleton]
          rfl

/-- **The position of a place is told by what stands in front of it.** -/
theorem position_append (xs ys : List Char) : position (byteLength xs) (xs ++ ys) = behind xs :=
  (go_append xs ys 1 1).trans (foldl_next xs)

end Fault

end RuleGrammar
