import RuleGrammar.Proofs.Characters
import RuleGrammar.Tree.Render

/-!
# What the lexer makes of a text

The lexer is read from the left: a blank, a sign, a name or a quotation at the head of a text adds its
token to those of the rest.  Places are left out, since only messages show them.

* `Token.essence`: a token without its place.
* `Lexes cs es`: the text `cs` is cut into tokens without a fault.
* `Lexes.white`, `Lexes.sign`, `Lexes.name`, `Lexes.terminal`: what stands at the head of a text.
* `spanQuoted_backslashed_append`, `spanQuoted_backslashed`, `unescaped_backslashed`: a written terminal
  is read back.
* `Fine`: what every token of a text is like; `fine_of_mem_lexFrom`.
-/

namespace RuleGrammar.Token

/-- A token without its place. -/
def essence (t : Token) : Kind × String := (t.kind, t.text)

/-! ### One token at a time -/

/-- The tokens of a text that begins with a token at a byte offset. -/
def lexHead (start : Nat) : List Char → Lexing
  | [] => ⟨[], none⟩
  | c :: tail =>
      match lexeme c tail with
      | .read kind text rest =>
          let others := lexFrom (start + byteLength text) rest
          ⟨ofLexeme start kind text :: others.tokens, others.fault⟩
      | .unclosed text => ⟨[], some ⟨.unclosedString, ⟨start, start + byteLength text⟩⟩⟩
      | .stray c => ⟨[], some ⟨.invalidChar c, ⟨start, start + c.utf8Size⟩⟩⟩

theorem lexFrom_eq (offset : Nat) (cs : List Char) :
    lexFrom offset cs
      = lexHead (offset + byteLength (spanBlank false cs).1) (spanBlank false cs).2 := by
  rw [lexFrom]
  split
  · next h =>
      simp only [h]
      rfl
  · next h =>
      simp only [h, lexHead]
      split
      · next h' => simp only [h']
      · next h' => simp only [h']
      · next h' => simp only [h']

/-- A text that is cut into tokens without a fault. -/
def Lexes (cs : List Char) (es : List (Kind × String)) : Prop :=
  ∀ offset, (lexFrom offset cs).tokens.map essence = es ∧ (lexFrom offset cs).fault = none

theorem Lexes.nil : Lexes [] [] := by
  intro offset
  rw [lexFrom_eq]
  exact ⟨rfl, rfl⟩

/-- White space in front of a text. -/
theorem Lexes.white {c : Char} {cs : List Char} {es : List (Kind × String)}
    (hc : Text.isWhiteSpace c = true) (h : Lexes cs es) : Lexes (c :: cs) es := by
  intro offset
  have hspan : spanBlank false (c :: cs) = (c :: (spanBlank false cs).1, (spanBlank false cs).2) := by
    rw [spanBlank, if_neg Bool.false_ne_true, if_pos hc]
  have hsame : lexFrom offset (c :: cs) = lexFrom (offset + c.utf8Size) cs := by
    rw [lexFrom_eq, lexFrom_eq, hspan, byteLength, Nat.add_assoc]
  rw [hsame]
  exact h _

/-- A text that begins with neither a blank nor a slash begins with a token or a fault. -/
theorem lexFrom_eq_lexHead {c : Char} (hwhite : Text.isWhiteSpace c = false) (hslash : c ≠ '/')
    (offset : Nat) (cs : List Char) : lexFrom offset (c :: cs) = lexHead offset (c :: cs) := by
  have hspan : spanBlank false (c :: cs) = ([], c :: cs) := by
    rw [spanBlank, if_neg Bool.false_ne_true, if_neg (by rw [hwhite]; exact Bool.false_ne_true),
      beq_eq_false_iff_ne.2 hslash, Bool.false_and, if_neg Bool.false_ne_true]
  rw [lexFrom_eq, hspan]
  rfl

/-- A token in front of a text. -/
theorem Lexes.token {c : Char} {cs text rest : List Char} {kind : Kind} {es : List (Kind × String)}
    (hwhite : Text.isWhiteSpace c = false) (hslash : c ≠ '/')
    (hread : lexeme c cs = .read kind text rest) (h : Lexes rest es) :
    Lexes (c :: cs) ((kind, String.ofList text) :: es) := by
  intro offset
  rw [lexFrom_eq_lexHead hwhite hslash, lexHead]
  simp only [hread]
  obtain ⟨htokens, hfault⟩ := h (offset + byteLength text)
  exact ⟨congrArg ((kind, String.ofList text) :: ·) htokens, hfault⟩

/-- A sign in front of a text. -/
theorem Lexes.sign {c : Char} {cs : List Char} {kind : Kind} {es : List (Kind × String)}
    (hc : punctuation? c = some kind) (h : Lexes cs es) :
    Lexes (c :: cs) ((kind, String.ofList [c]) :: es) := by
  obtain ⟨hquote, hwhite, hslash, _⟩ := signs_spec (mem_signs_of_punctuation? hc)
  refine Lexes.token hwhite hslash ?_ h
  rw [lexeme, if_neg (by rw [hquote]; exact Bool.false_ne_true), hc]

/-! ### Names -/

/-- A text at whose head a name and a closing mark end. -/
def Parted (cs : List Char) : Prop := ∀ c ∈ cs.head?, isNameRest c = false ∧ c ≠ '!'

theorem parted_space (cs : List Char) : Parted (' ' :: cs) := by
  rintro c ⟨⟩
  decide +kernel

theorem parted_paren (cs : List Char) : Parted (')' :: cs) := by
  rintro c ⟨⟩
  decide +kernel

theorem takeWhile_of_parted {word cs : List Char} (hword : ∀ c ∈ word, isNameRest c = true)
    (hcs : Parted cs) : (word ++ cs).takeWhile isNameRest = word ∧
      (word ++ cs).dropWhile isNameRest = cs := by
  have htake : cs.takeWhile isNameRest = [] ∧ cs.dropWhile isNameRest = cs := by
    cases cs with
    | nil => exact ⟨rfl, rfl⟩
    | cons c cs =>
        have hc := (hcs c rfl).1
        rw [List.takeWhile_cons, List.dropWhile_cons, hc]
        exact ⟨rfl, rfl⟩
  rw [List.takeWhile_append_of_pos hword, List.dropWhile_append_of_pos hword, htake.1, htake.2]
  exact ⟨List.append_nil _, rfl⟩

/-- A name in front of a text that does not continue it. -/
theorem Lexes.name {name : String} {cs : List Char} {es : List (Kind × String)}
    (hname : IsIdentifier name) (hcs : Parted cs) (h : Lexes cs es) :
    Lexes (name.toList ++ cs) ((.ident, name) :: es) := by
  obtain ⟨c, word, hlist, hc, hword⟩ := isIdentifier_iff.1 hname
  obtain ⟨htake, hdrop⟩ := takeWhile_of_parted hword hcs
  have hread : lexeme c (word ++ cs) = .read .ident (c :: word) cs := by
    rw [lexeme, if_neg (by rw [isQuote_of_isNameStart hc]; exact Bool.false_ne_true),
      punctuation?_of_isNameStart hc]
    dsimp only
    rw [if_pos hc, htake, hdrop]
    split
    · exact absurd rfl (hcs _ rfl).2
    · rfl
  have hlex := Lexes.token (isWhiteSpace_of_isNameStart hc)
    (ne_of_isNameStart hc (by decide +kernel)) hread h
  rw [← hlist, String.ofList_toList] at hlex
  rw [hlist]
  exact hlex

/-! ### Quotations -/

/-- Behind a written name without line breaks a quotation is open as it was in front of it. -/
theorem spanQuoted_backslashed_append (quote : Char) (cs : List Char) :
    ∀ name : List Char, ¬ '\n' ∈ name →
      spanQuoted quote false (backslashed quote name ++ cs)
        = (backslashed quote name ++ (spanQuoted quote false cs).1, (spanQuoted quote false cs).2) := by
  intro name
  induction name with
  | nil =>
      intro _
      rfl
  | cons c name ih =>
      intro hline
      have hc : c ≠ '\n' := by
        rintro rfl
        exact hline (List.mem_cons_self ..)
      have hrest := ih fun hmem => hline (List.mem_cons_of_mem c hmem)
      rw [backslashed]
      split
      · next hesc => simp [spanQuoted, hrest, hc]
      · next hesc =>
          rw [not_or] at hesc
          simp [spanQuoted, hrest, hesc.1, hesc.2, hc]

/-- What was written between quotes ends at the closing quote. -/
theorem spanQuoted_backslashed (quote : Char) (hquote : quote ≠ '\\') (cs : List Char) :
    ∀ name : List Char, ¬ '\n' ∈ name →
      spanQuoted quote false (backslashed quote name ++ quote :: cs)
        = (backslashed quote name ++ [quote], some cs) := by
  intro name hline
  rw [spanQuoted_backslashed_append quote _ name hline]
  simp [spanQuoted, hquote]

theorem unescaped_backslashed (quote : Char) (name : List Char) :
    unescaped (backslashed quote name) = name := by
  induction name with
  | nil => rfl
  | cons c name ih =>
      rw [backslashed]
      split
      · rw [unescaped, ih]
      · next hesc =>
          rw [not_or] at hesc
          rw [unescaped, ih]
          · rintro rfl
            exact absurd rfl hesc.2
          · rintro d ds rfl
            exact absurd rfl hesc.2

theorem quoteFor_spec (name : List Char) : isQuote (quoteFor name) = true ∧ quoteFor name ≠ '\\' ∧
    Text.isWhiteSpace (quoteFor name) = false ∧ quoteFor name ≠ '/' := by
  unfold quoteFor
  split
  · decide +kernel
  · decide +kernel

def terminalEssence (name : String) : Kind × String :=
  if name = "" then (.epsilon, "@") else (.string, terminalText name)

/-- A written terminal in front of a text. -/
theorem Lexes.terminal {name : String} {cs : List Char} {es : List (Kind × String)}
    (hname : ¬ '\n' ∈ name.toList) (h : Lexes cs es) :
    Lexes ((terminalText name).toList ++ cs) (terminalEssence name :: es) := by
  unfold terminalText terminalEssence
  by_cases hempty : name = ""
  · rw [if_pos hempty, if_pos hempty]
    exact Lexes.sign rfl h
  · rw [if_neg hempty, if_neg hempty, terminalText, if_neg hempty]
    obtain ⟨hquote, hback, hwhite, hslash⟩ := quoteFor_spec name.toList
    dsimp only
    rw [String.toList_ofList, List.cons_append, List.append_assoc, List.singleton_append]
    refine Lexes.token hwhite hslash ?_ h
    rw [lexeme, if_pos hquote, spanQuoted_backslashed _ hback cs _ hname]

/-- A written terminal is read back. -/
theorem unquoted_terminalText {name : String} (hname : name ≠ "") :
    unquoted (terminalText name) = name := by
  rw [unquoted, terminalText, if_neg hname]
  dsimp only
  rw [String.toList_ofList, List.tail_cons, List.dropLast_concat, unescaped_backslashed,
    String.ofList_toList]

/-! ### Every token -/

/-- What every token of a text is like: names are names, and no quotation holds a line break. -/
def Fine (t : Token) : Prop :=
  (t.kind = .ident → IsIdentifier t.text) ∧
    (t.kind = .string → ¬ '\n' ∈ (unquoted t.text).toList)

theorem newline_not_mem_spanQuoted {quote : Char} (hquote : quote ≠ '\n') {cs : List Char} :
    ∀ {escaped : Bool} {body rest : List Char},
      spanQuoted quote escaped cs = (body, some rest) → ¬ '\n' ∈ body := by
  induction cs with
  | nil =>
      intro escaped body rest h
      simp [spanQuoted] at h
  | cons c cs ih =>
      intro escaped body rest h
      rw [spanQuoted] at h
      split at h
      · next hback =>
          obtain ⟨rfl, hrest⟩ := Prod.mk.inj h
          have hbody := ih (Prod.ext rfl hrest)
          rw [Bool.and_eq_true, beq_iff_eq] at hback
          rw [List.mem_cons, not_or]
          exact ⟨by rw [hback.1]; decide, hbody⟩
      · split at h
        · next hclose =>
            obtain ⟨rfl, _⟩ := Prod.mk.inj h
            rw [Bool.and_eq_true, beq_iff_eq] at hclose
            rw [List.mem_singleton, hclose.1]
            exact hquote.symm
        · split at h
          · cases (Prod.mk.inj h).2
          · next hline =>
              obtain ⟨rfl, hrest⟩ := Prod.mk.inj h
              have hbody := ih (Prod.ext rfl hrest)
              rw [beq_iff_eq] at hline
              rw [List.mem_cons, not_or]
              exact ⟨fun h => hline h.symm, hbody⟩

theorem mem_of_mem_unescaped {c : Char} (cs : List Char) (h : c ∈ unescaped cs) : c ∈ cs := by
  induction cs using unescaped.induct with
  | case1 => exact h
  | case2 => cases h
  | case3 d cs ih =>
      rw [unescaped, List.mem_cons] at h
      rcases h with rfl | h
      · simp
      · simp [ih h]
  | case4 d cs hne hnil ih =>
      rw [unescaped, List.mem_cons] at h
      · rcases h with rfl | h
        · simp
        · simp [ih h]
      · assumption
      · assumption

theorem newline_not_mem_unquoted {text : List Char} (h : ¬ '\n' ∈ text) :
    ¬ '\n' ∈ (unquoted (String.ofList text)).toList := by
  intro hmem
  rw [unquoted, String.toList_ofList, String.toList_ofList] at hmem
  exact h (List.mem_of_mem_tail (List.dropLast_subset _ (mem_of_mem_unescaped _ hmem)))

theorem fine_of_lexeme {c : Char} {cs text rest : List Char} {kind : Kind}
    (h : lexeme c cs = .read kind text rest) (start : Nat) : Fine (ofLexeme start kind text) := by
  rw [lexeme] at h
  split at h
  · next hquote =>
      split at h
      · next body tail hspan =>
          cases h
          have hc : c ≠ '\n' := by
            rintro rfl
            cases hquote
          refine ⟨fun hkind => (by cases hkind), fun _ => newline_not_mem_unquoted ?_⟩
          rw [List.mem_cons, not_or]
          exact ⟨hc.symm, newline_not_mem_spanQuoted hc hspan⟩
      · cases h
  · split at h
    · next kind' hsign =>
        cases h
        have hkind : kind ≠ .ident ∧ kind ≠ .string := by
          unfold punctuation? at hsign
          split at hsign <;> cases hsign <;> decide
        exact ⟨fun h => absurd h hkind.1, fun h => absurd h hkind.2⟩
    · split at h
      · next hc =>
          have hword : IsIdentifier (String.ofList (c :: cs.takeWhile isNameRest)) := by
            refine isIdentifier_iff.2 ⟨c, _, String.toList_ofList, hc, ?_⟩
            exact List.all_eq_true.1 List.all_takeWhile
          dsimp only at h
          split at h
          · split at h
            · cases h
              exact ⟨fun hkind => (by cases hkind), fun hkind => (by cases hkind)⟩
            · cases h
              exact ⟨fun _ => hword, fun hkind => (by cases hkind)⟩
          · cases h
            exact ⟨fun _ => hword, fun hkind => (by cases hkind)⟩
      · cases h

/-- Every token of a text is fine. -/
theorem fine_of_mem_lexFrom (offset : Nat) (cs : List Char) :
    ∀ t ∈ (lexFrom offset cs).tokens, Fine t := by
  intro t ht
  rw [lexFrom_eq] at ht
  match hb : spanBlank false cs with
  | (blank, []) =>
      rw [hb] at ht
      cases ht
  | (blank, c :: tail) =>
      rw [hb, lexHead] at ht
      split at ht
      · next kind text rest hread =>
          have hlt := length_rest_lt hb hread
          rcases List.mem_cons.1 ht with rfl | ht
          · exact fine_of_lexeme hread _
          · exact fine_of_mem_lexFrom _ rest t ht
      · cases ht
      · cases ht
termination_by cs.length

end RuleGrammar.Token
