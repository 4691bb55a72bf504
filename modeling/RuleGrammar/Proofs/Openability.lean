import RuleGrammar.Proofs.Inlining

/-!
# Which trees can be opened

A tree can be opened if every reference that is met by going into the rules of opened references is
opened itself and has a rule.  The check for this goes through the tree from left to right and stops at
the first bad reference.  It keeps only the rules that it is inside of, and a reference to one of them it
takes for good.  No bad reference hides behind such a cut: a way to it that goes through a rule twice can
be made shorter, and the shortest ways are never cut.

* `Checks g path t b`: the check inside the rules on `path` answers `b`, as a relation with no bound on
  the depth; `Checks.unique`, `checks_iff`.
* `Finds g path t id opened`: the references that are met without going into a rule on `path`, or into
  any rule twice.
* `Meets.finds`: a reference that is met at all is met without going into a rule twice.
* `allOpened_decides_openability`: what the check answers, for every grammar and every tree.
-/

namespace RuleGrammar

/-- A tree is put together from a left and a right part. -/
inductive Tree.Parts {α : Type} : Tree α → Tree α → Tree α → Prop where
  | seq (l r : Tree α) : Parts (.seq l r) l r
  | alt (l r : Tree α) : Parts (.alt l r) l r
  | iter (l r : Tree α) : Parts (.iter l r) l r

namespace Tree.Parts

variable {α : Type} {t l r l' r' : Tree α}

theorem unique (h : t.Parts l r) (h' : t.Parts l' r') : l = l' ∧ r = r' := by
  cases h <;> cases h' <;> exact ⟨rfl, rfl⟩

theorem mentions_eq (h : t.Parts l r) : t.mentions = l.mentions ++ r.mentions := by
  cases h <;> rfl

end Tree.Parts

namespace Grammar

variable {g : Grammar} {path : List Nat} {t : Rule} {b : Bool} {id : Nat} {opened : Bool}

/-! ### The check as a relation -/

/-- `g.Checks path t b` says that the check whether the references of `t` can be opened, inside the rules
on `path`, comes to an end with the answer `b`. -/
inductive Checks (g : Grammar) : List Nat → Rule → Bool → Prop where
  | terminal {path : List Nat} (a : Nat) : Checks g path (.terminal a) true
  | semantic {path : List Nat} (a : Nat) : Checks g path (.semantic a) true
  | plain {path : List Nat} (nt : Nat) : Checks g path (.reference nt false) false
  | entered {path : List Nat} {nt : Nat} (hpath : nt ∈ path) :
      Checks g path (.reference nt true) true
  | absent {path : List Nat} {nt : Nat} (hpath : ¬ nt ∈ path) (hrule : g.rule? nt = none) :
      Checks g path (.reference nt true) false
  | opened {path : List Nat} {nt : Nat} {rule : Rule} {b : Bool} (hpath : ¬ nt ∈ path)
      (hrule : g.rule? nt = some rule) (h : Checks g (nt :: path) rule b) :
      Checks g path (.reference nt true) b
  -- if the left part is bad, the right part is not looked at
  | left {path : List Nat} {t l r : Rule} (ht : t.Parts l r) (hl : Checks g path l false) :
      Checks g path t false
  | right {path : List Nat} {t l r : Rule} {b : Bool} (ht : t.Parts l r) (hl : Checks g path l true)
      (hr : Checks g path r b) : Checks g path t b

namespace Checks

/-- The check has one answer only. -/
theorem unique (h : g.Checks path t b) : ∀ {b' : Bool}, g.Checks path t b' → b = b' := by
  induction h with
  | terminal a | semantic a | plain nt =>
      intro b' h'
      cases h' with
      | left ht | right ht => cases ht
      | _ => rfl
  | entered hpath =>
      intro b' h'
      cases h' with
      | entered => rfl
      | absent hout | opened hout => exact absurd hpath hout
      | left ht | right ht => cases ht
  | absent hpath hrule =>
      intro b' h'
      cases h' with
      | entered hin => exact absurd hin hpath
      | absent => rfl
      | opened _ hsome => simp [hrule] at hsome
      | left ht | right ht => cases ht
  | opened hpath hrule _ ih =>
      intro b' h'
      cases h' with
      | entered hin => exact absurd hin hpath
      | absent _ hnone => simp [hrule] at hnone
      | opened _ hsome hbody =>
          rw [hrule] at hsome
          cases hsome
          exact ih hbody
      | left ht | right ht => cases ht
  | left ht _ ih =>
      intro b' h'
      cases h' with
      | left => rfl
      | right ht' hl' =>
          obtain ⟨rfl, rfl⟩ := ht.unique ht'
          exact absurd (ih hl') (by simp)
      | _ => cases ht
  | right ht _ _ ihl ihr =>
      intro b' h'
      cases h' with
      | left ht' hl' =>
          obtain ⟨rfl, rfl⟩ := ht.unique ht'
          exact absurd (ihl hl') (by simp)
      | right ht' _ hr' =>
          obtain ⟨rfl, rfl⟩ := ht.unique ht'
          exact ihr hr'
      | _ => cases ht

/-- The parts of a tree one after the other. -/
theorem parts {l r : Rule} {b b' : Bool} (ht : t.Parts l r) (hl : g.Checks path l b)
    (hr : g.Checks path r b') : g.Checks path t (b && b') := by
  cases b with
  | false => exact .left ht hl
  | true => exact .right ht hl hr

/-- The answers for the single references make up the answer for a tree. -/
theorem all {good : Nat × Bool → Bool} (hplain : ∀ nt, good (nt, false) = false)
    (hopened : ∀ nt, g.Checks path (.reference nt true) (good (nt, true))) (t : Rule) :
    g.Checks path t (t.mentions.all good) := by
  induction t with
  | terminal a => exact .terminal a
  | semantic a => exact .semantic a
  | reference nt opened =>
      rw [Tree.mentions, List.all_cons, List.all_nil, Bool.and_true]
      cases opened with
      | false =>
          rw [hplain]
          exact .plain nt
      | true => exact hopened nt
  | seq l r ihl ihr =>
      rw [Tree.mentions, List.all_append]
      exact .parts (.seq l r) ihl ihr
  | alt l r ihl ihr =>
      rw [Tree.mentions, List.all_append]
      exact .parts (.alt l r) ihl ihr
  | iter l r ihl ihr =>
      rw [Tree.mentions, List.all_append]
      exact .parts (.iter l r) ihl ihr

/-- A good tree has good references only. -/
theorem of_mem_mentions (h : g.Checks path t b) (hb : b = true) (hmem : (id, opened) ∈ t.mentions) :
    opened = true ∧ g.Checks path (.reference id true) true := by
  induction h with
  | terminal a | semantic a => simp [Tree.mentions] at hmem
  | plain nt | absent | left => cases hb
  | entered hpath =>
      cases List.mem_singleton.1 hmem
      exact ⟨rfl, .entered hpath⟩
  | opened hpath hrule h _ =>
      subst hb
      cases List.mem_singleton.1 hmem
      exact ⟨rfl, .opened hpath hrule h⟩
  | right ht _ _ ihl ihr =>
      rw [ht.mentions_eq] at hmem
      rcases List.mem_append.1 hmem with hmem | hmem
      · exact ihl rfl hmem
      · exact ihr hb hmem

end Checks

/-! ### The check comes to an end -/

/-- **With a depth for each rule that can still be entered, the answer is that of the check.** -/
theorem checks_openedWithin (depth : Nat) : ∀ (path : List Nat) (t : Rule),
    (g.unentered path).card ≤ depth → g.Checks path t (g.openedWithin depth path t) := by
  induction depth with
  | zero =>
      intro path t hdepth
      refine Checks.all (fun nt => rfl) (fun nt => ?_) t
      show g.Checks path _ (true && path.contains nt)
      by_cases hpath : nt ∈ path
      · rw [List.contains_iff_mem.2 hpath]
        exact .entered hpath
      · rw [Bool.eq_false_iff.2 fun h => hpath (List.contains_iff_mem.1 h)]
        -- no rule is left to be entered, so this reference has none
        refine .absent hpath ?_
        cases hrule : g.rule? nt with
        | none => rfl
        | some rule =>
            have hpos := Finset.card_pos.2 ⟨nt, mem_unentered hrule hpath⟩
            omega
  | succ depth ih =>
      intro path t hdepth
      refine Checks.all (fun nt => rfl) (fun nt => ?_) t
      show g.Checks path _ (true && (path.contains nt || _))
      by_cases hpath : nt ∈ path
      · rw [List.contains_iff_mem.2 hpath]
        exact .entered hpath
      · rw [Bool.eq_false_iff.2 fun h => hpath (List.contains_iff_mem.1 h), Bool.true_and,
          Bool.false_or]
        cases hrule : g.rule? nt with
        | none => exact .absent hpath hrule
        | some rule =>
            have hlt := card_unentered_lt hrule hpath
            exact .opened hpath hrule (ih (nt :: path) rule (by omega))

/-- **The check comes to an end, with one answer.**  The depth of as many levels as there are places for
rules is never what ends it. -/
theorem checks_iff : g.Checks path t b ↔ b = g.openedWithin g.rules.size path t := by
  have hend := checks_openedWithin g.rules.size path t (card_unentered_le g path)
  constructor
  · intro h
    exact h.unique hend
  · intro h
    rw [h]
    exact hend

/-! ### References on shortest ways -/

/-- `g.Finds path t id opened` says that a reference to `id` with the mark `opened` is met from the tree
`t` without going into a rule on `path`, or into any rule twice. -/
inductive Finds (g : Grammar) : List Nat → Rule → Nat → Bool → Prop where
  | here {path : List Nat} {t : Rule} {id : Nat} {opened : Bool} (h : (id, opened) ∈ t.mentions) :
      Finds g path t id opened
  | deeper {path : List Nat} {t rule : Rule} {via id : Nat} {opened : Bool}
      (hvia : (via, true) ∈ t.mentions) (hpath : ¬ via ∈ path) (hrule : g.rule? via = some rule)
      (h : Finds g (via :: path) rule id opened) : Finds g path t id opened

/-- The references in the rule of an opened reference that is found are found too, unless that rule is on
the path.  If the way to the reference has gone through its rule before, it is cut off there. -/
theorem Finds.enter {rule : Rule} {via : Nat} (h : g.Finds path t via true)
    (hrule : g.rule? via = some rule) (hmem : (id, opened) ∈ rule.mentions) :
    via ∈ path ∨ g.Finds path t id opened := by
  generalize hmark : true = mark at h
  induction h with
  | @here path t via mark hvia =>
      subst hmark
      by_cases hpath : via ∈ path
      · exact Or.inl hpath
      · exact Or.inr (.deeper hvia hpath hrule (.here hmem))
  | @deeper path t other first via mark hfirst hpath hother _ ih =>
      rcases ih hrule hmark with hin | hfound
      · rcases List.mem_cons.1 hin with rfl | hin
        · rw [hrule] at hother
          cases hother
          exact Or.inr (.deeper hfirst hpath hrule (.here hmem))
        · exact Or.inl hin
      · exact Or.inr (.deeper hfirst hpath hother hfound)

/-- **A reference that is met is met without going into a rule twice.** -/
theorem Meets.finds (h : g.Meets t id opened) : g.Finds [] t id opened := by
  induction h with
  | here h => exact .here h
  | deeper _ hrule h ih =>
      rcases ih.enter hrule h with hnil | hfound
      · cases hnil
      · exact hfound

/-- What is found from a good tree is opened and has a rule, if the rules on the path exist. -/
theorem Finds.good (h : g.Finds path t id opened) (hpath : ∀ nt ∈ path, g.hasRule nt = true)
    (hcheck : g.Checks path t true) : opened = true ∧ g.hasRule id = true := by
  have hsome : ∀ {nt : Nat} {rule : Rule}, g.rule? nt = some rule → g.hasRule nt = true := by
    intro nt rule hrule
    rw [hasRule, hrule]
    rfl
  induction h with
  | here hmem =>
      obtain ⟨hopened, href⟩ := hcheck.of_mem_mentions rfl hmem
      refine ⟨hopened, ?_⟩
      cases href with
      | entered hin => exact hpath _ hin
      | opened _ hrule => exact hsome hrule
      | right ht => cases ht
  | deeper hvia hout hrule _ ih =>
      obtain ⟨_, href⟩ := hcheck.of_mem_mentions rfl hvia
      refine ih (List.forall_mem_cons.2 ⟨hsome hrule, hpath⟩) ?_
      cases href with
      | entered hin => exact absurd hin hout
      | opened _ hrule' hbody =>
          rw [hrule] at hrule'
          cases hrule'
          exact hbody
      | right ht => cases ht

/-! ### References of parts and of rules -/

theorem Meets.mono {u : Rule} (h : g.Meets t id opened) (hsub : ∀ m ∈ t.mentions, m ∈ u.mentions) :
    g.Meets u id opened := by
  induction h with
  | here h => exact .here (hsub _ h)
  | deeper _ hrule h ih => exact .deeper ih hrule h

/-- What is met from the rule of an opened reference is met from the reference. -/
theorem Meets.of_rule {rule : Rule} {nt : Nat} (hrule : g.rule? nt = some rule)
    (h : g.Meets rule id opened) : g.Meets (.reference nt true) id opened := by
  induction h with
  | here h => exact .deeper (.here (List.mem_singleton.2 rfl)) hrule h
  | deeper _ hvia h ih => exact .deeper ih hvia h

/-- The check finds nothing wrong if everything that is met is opened and has a rule. -/
theorem Checks.eq_true (h : g.Checks path t b)
    (hgood : ∀ id opened, g.Meets t id opened → opened = true ∧ g.hasRule id = true) : b = true := by
  induction h with
  | terminal | semantic | entered => rfl
  | plain nt => exact (hgood nt false (.here (List.mem_singleton.2 rfl))).1
  | absent _ hrule =>
      have hhas := (hgood _ true (.here (List.mem_singleton.2 rfl))).2
      rw [hasRule, hrule] at hhas
      exact hhas
  | opened _ hrule _ ih => exact ih fun id opened hmeets => hgood id opened (hmeets.of_rule hrule)
  | left ht _ ih =>
      refine ih fun id opened hmeets => hgood id opened (hmeets.mono fun m hm => ?_)
      rw [ht.mentions_eq]
      exact List.mem_append_left _ hm
  | right ht _ _ _ ihr =>
      refine ihr fun id opened hmeets => hgood id opened (hmeets.mono fun m hm => ?_)
      rw [ht.mentions_eq]
      exact List.mem_append_right _ hm

/-- **The check decides whether a tree can be opened.**  For every grammar and every tree, also where
rules open each other in a circle, the check comes to an end with one answer; and the answer is yes if and
only if every reference that is met by going again and again from an opened reference to the references in
its rule is opened and has a rule. -/
theorem allOpened_decides_openability (g : Grammar) (t : Rule) :
    (∀ b, g.Checks [] t b ↔ b = g.allOpened t) ∧
      (g.allOpened t = true ↔
        ∀ id opened, g.Meets t id opened → opened = true ∧ g.hasRule id = true) := by
  have hchecks : g.Checks [] t (g.allOpened t) := checks_iff.2 rfl
  refine ⟨fun b => checks_iff, fun hall id opened hmeets => ?_, fun hgood => hchecks.eq_true hgood⟩
  rw [hall] at hchecks
  exact hmeets.finds.good (by simp) hchecks

/-- In the circular grammar a name without a rule stands behind two rules that open each other, and it is
met; once it has a rule, which opens one of the two again, everything that is met is good. -/
theorem allOpened_decides_openability_circular :
    circular.allOpened (.reference 0 true) = false ∧
      (¬ ∀ id opened, circular.Meets (.reference 0 true) id opened →
        opened = true ∧ circular.hasRule id = true) ∧
      (circular.setRule 3 (.reference 1 true)).allOpened (.reference 0 true) = true ∧
      ∀ id opened, (circular.setRule 3 (.reference 1 true)).Meets (.reference 0 true) id opened →
        opened = true ∧ (circular.setRule 3 (.reference 1 true)).hasRule id = true := by
  have hbad : circular.allOpened (.reference 0 true) = false := by decide +kernel
  have hgood : (circular.setRule 3 (.reference 1 true)).allOpened (.reference 0 true) = true := by
    decide +kernel
  refine ⟨hbad, fun hall => ?_, hgood, (allOpened_decides_openability _ _).2.1 hgood⟩
  rw [(allOpened_decides_openability _ _).2.2 hall] at hbad
  cases hbad

end Grammar

end RuleGrammar
