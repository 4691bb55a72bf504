import RuleGrammar.Proofs.Revision
import RuleGrammar.Proofs.Saturation
import RuleGrammar.Revision.Useless

/-!
# Useless rules are useless

Once the passes have converged, as they do with no more than 999 nonterminals, every nonterminal that
derives a word counts as productive.  The search marks a nonterminal when it puts it on the stack, so a
marked nonterminal that has left the stack has its productive references marked, and there are visits
enough for the stack to become empty.  What the rules of a marked nonterminal lead to in a derivation is
productive and marked, and keeps its rules.

* `settles_productive`: the passes that are made; `lt_of_flag`: what they can flag; `flag_of_language`:
  what derives a word counts as productive.
* `Exploring`, `exploring_step`, `exploring_explore`: the search, step by step and as a whole.
* `reachable_root`, `reachable_closed`, `reachable_sound`: what is reached.
* `rule?_clearUnmarked`, `clearUnmarked_spec`: which rules are taken away.
* `marks`: what decides which rules stay; `rule?_removeUseless_of_marks`, `mark_of_reference`.
* `language_of_mark`, `language_removeUseless`: marked nonterminals and the start symbol keep their words.
-/

namespace RuleGrammar

open Grammar FixedPoint

variable {g g' : Grammar} {flags reached : Flags} {stack : List Nat} {nt m n : Nat} {rule : Rule} {w : Word}

/-! ### Productive nonterminals -/

/-- Whether a tree counts as productive depends on the flags of its references. -/
theorem Tree.productive_congr {s t : Flags} (h : ∀ n, s.getD n false = t.getD n false)
    (rule : Rule) : rule.productive s = rule.productive t := by
  induction rule with
  | reference nt opened => exact h nt
  | seq l r ihl ihr => rw [productive, productive, ihl, ihr]
  | alt l r ihl ihr => rw [productive, productive, ihl, ihr]
  | _ => rfl

/-- A tree with a word is productive. -/
theorem Tree.Spells.productive {t : Rule} : ∀ {w : Word},
    t.Spells (Letter 0) (fun nt _ => flags.getD nt false = true) w → t.productive flags = true := by
  induction t with
  | reference nt opened =>
      intro w h
      exact h
  | seq l r ihl ihr =>
      rintro w ⟨u, v, _, hu, hv⟩
      rw [Tree.productive, ihl hu, ihr hv]
      rfl
  | alt l r ihl ihr =>
      rintro w (h | h)
      · rw [Tree.productive, ihl h]
        rfl
      · rw [Tree.productive, ihr h, Bool.or_true]
  | _ =>
      intro w _
      rfl

/-- Every reference of a tree is among its references. -/
theorem Tree.over_references (t : Rule) : t.Over (fun _ => True) (· ∈ t.references) := by
  have hover : ∀ (t : Rule) {P : Nat → Prop}, (∀ n ∈ t.references, P n) → t.Over (fun _ => True) P := by
    intro t P
    induction t with
    | reference nt opened =>
        intro h
        exact h nt (List.mem_singleton_self nt)
    | seq l r ihl ihr | alt l r ihl ihr | iter l r ihl ihr =>
        intro h
        simp only [references, mentions, List.map_append, List.mem_append] at h
        exact ⟨ihl fun n hn => h n (Or.inl hn), ihr fun n hn => h n (Or.inr hn)⟩
    | _ =>
        intro _
        trivial
  exact hover t fun n hn => hn

namespace Useless

theorem productivePass_eq_sweep (rules : List (Nat × Rule)) :
    productivePass rules = sweep (flagMove Tree.productive) rules :=
  funext fun flags => foldl_flags_eq_sweep Tree.productive rules flags

theorem lt_of_mem_ownedRules : ∀ item ∈ g.ownedRules, item.1 < g.nonterminals.size :=
  fun _ hitem => (mem_ownedRules.1 hitem).1

theorem productivePass_local (g : Grammar) :
    (flagView g.nonterminals.size).Local (productivePass g.ownedRules) := by
  rw [productivePass_eq_sweep]
  exact (flagSweep_local Tree.productive_congr lt_of_mem_ownedRules).2

theorem settles_productive (hsize : g.nonterminals.size ≤ 999) :
    (productive g).Settles (productivePass g.ownedRules) (g.nonterminals.size + 1) :=
  (productivePass_local g).settles Array.size_replicate (Nat.lt_succ_of_le hsize)

/-- Only nonterminals of the table are flagged, however many passes were made. -/
theorem lt_of_flag (h : (productive g).value.getD n false = true) : n < g.nonterminals.size := by
  have hvalid : (productive g).value.size = g.nonterminals.size :=
    run_invariant (flagView g.nonterminals.size).Valid (fun _ => (productivePass_local g).valid) maxPasses
      (Array.replicate g.nonterminals.size false) Array.size_replicate
  exact (flagView g.nonterminals.size).below (x := 0) hvalid h

/-- A nonterminal whose rule counts as productive counts so too, once the passes have converged. -/
theorem flag_of_rule (hconv : (productive g).converged = true) (hnt : nt < g.nonterminals.size)
    (hrule : g.rule? nt = some rule) (h : rule.productive (productive g).value = true) :
    (productive g).value.getD nt false = true := by
  have hclosed := flags_closed maxPasses Tree.productive_congr (lt_of_mem_ownedRules (g := g))
  rw [← productivePass_eq_sweep] at hclosed
  exact hclosed hconv (mem_ownedRules.2 ⟨hnt, hrule⟩) h

/-- **What derives a word counts as productive**, once the passes have converged. -/
theorem flag_of_language (hconv : (productive g).converged = true) (h : g.Language nt w) :
    (productive g).value.getD nt false = true := by
  refine language_least (S := fun nt _ => (productive g).value.getD nt false = true) ?_ h
  intro nt rule w hnt hrule hspells
  exact flag_of_rule hconv hnt hrule hspells.productive

/-! ### The search -/

/-- What holds during the search: what is on the stack is marked, and of a marked nonterminal that is
not on the stack the productive references are marked. -/
structure Exploring (g : Grammar) (flags : Flags) (stack : List Nat) (reached : Flags) : Prop where
  marked : ∀ n ∈ stack, reached.getD n false = true
  done : ∀ m rule, reached.getD m false = true → ¬ m ∈ stack → g.rule? m = some rule →
    ∀ n ∈ rule.nonterminals, flags.getD n false = true → n < reached.size →
      reached.getD n false = true

/-- What visits do to a stack and to marks: both grow, what is put on the stack is marked, what is
marked is put on the stack, and no room is used up. -/
structure Advances (s t : List Nat × Flags) : Prop where
  size : t.2.size = s.2.size
  grows : ∀ n, s.2.getD n false = true → t.2.getD n false = true
  keeps : ∀ n ∈ s.1, n ∈ t.1
  marked : ∀ n ∈ t.1, n ∈ s.1 ∨ t.2.getD n false = true
  stacked : ∀ n, t.2.getD n false = true → s.2.getD n false = true ∨ n ∈ t.1
  -- the stack and what is not marked come to no more together
  room : t.1.length + t.2.count false ≤ s.1.length + s.2.count false

theorem Advances.refl (s : List Nat × Flags) : Advances s s :=
  ⟨rfl, fun _ h => h, fun _ h => h, fun _ h => Or.inl h, fun _ h => Or.inl h, Nat.le_refl _⟩

theorem Advances.trans {s t u : List Nat × Flags} (h : Advances s t) (h' : Advances t u) :
    Advances s u where
  size := h'.size.trans h.size
  grows n hn := h'.grows n (h.grows n hn)
  keeps n hn := h'.keeps n (h.keeps n hn)
  marked n hn := by
    rcases h'.marked n hn with hn | hn
    · exact (h.marked n hn).imp_right (h'.grows n)
    · exact Or.inr hn
  stacked n hn := by
    rcases h'.stacked n hn with hn | hn
    · exact (h.stacked n hn).imp_right (h'.keeps n)
    · exact Or.inr hn
  room := Nat.le_trans h'.room h.room

/-- Marking what was not marked leaves one less. -/
theorem count_setIfInBounds (reached : Flags) (hn : reached[n]? = some false) :
    (reached.setIfInBounds n true).count false + 1 = reached.count false := by
  obtain ⟨hlt, hfalse⟩ := Array.getElem?_eq_some_iff.1 hn
  have hpos : 0 < reached.count false :=
    Array.count_pos_iff.2 (hfalse ▸ Array.getElem_mem hlt)
  rw [Array.setIfInBounds_def, dif_pos hlt, Array.count_set hlt, hfalse]
  show reached.count false - 1 + 0 + 1 = reached.count false
  omega

theorem getElem?_of_getD_true (h : reached.getD n true = false) : reached[n]? = some false := by
  rw [Array.getD_eq_getD_getElem?] at h
  cases hget : reached[n]? with
  | none =>
      rw [hget] at h
      cases h
  | some b =>
      rw [hget] at h
      exact congrArg some h

/-- A visit advances, and what is visited is marked if it is productive. -/
theorem advances_visit (flags : Flags) (s : List Nat × Flags) (n : Nat) :
    Advances s (visit flags s n) ∧ (flags.getD n false = true → n < s.2.size →
      (visit flags s n).2.getD n false = true) := by
  obtain ⟨stack, reached⟩ := s
  unfold visit
  dsimp only
  split
  · next hvisit =>
      rw [Bool.and_eq_true, Bool.not_eq_true'] at hvisit
      have hn : reached[n]? = some false := getElem?_of_getD_true hvisit.2
      have hlt := (Array.getElem?_eq_some_iff.1 hn).1
      have hmark : ∀ k, (reached.setIfInBounds n true).getD k false =
          if k = n then true else reached.getD k false := fun k => getD_setIfInBounds hlt
      have hcount := count_setIfInBounds reached hn
      refine ⟨⟨Array.size_setIfInBounds .., fun k hk => ?_, fun k hk => List.mem_cons_of_mem n hk,
        fun k hk => ?_, fun k hk => ?_, ?_⟩, fun _ _ => ?_⟩
      · rw [hmark]
        split
        · rfl
        · exact hk
      · rcases List.mem_cons.1 hk with rfl | hk
        · exact Or.inr (by rw [hmark, if_pos rfl])
        · exact Or.inl hk
      · rw [hmark] at hk
        split at hk
        · next hkn =>
            rw [hkn]
            exact Or.inr (List.mem_cons_self ..)
        · exact Or.inl hk
      · show stack.length + 1 + (reached.setIfInBounds n true).count false
          ≤ stack.length + reached.count false
        omega
      · rw [hmark, if_pos rfl]
  · next hno =>
      refine ⟨Advances.refl _, fun hflag hlt => ?_⟩
      rw [hflag, Bool.true_and, Bool.not_eq_true', Bool.not_eq_false] at hno
      rw [Array.getD_eq_getD_getElem?, Array.getElem?_eq_getElem hlt] at hno ⊢
      exact hno

theorem advances_visits (flags : Flags) : ∀ (ns : List Nat) (s : List Nat × Flags),
    Advances s (ns.foldl (visit flags) s) ∧ ∀ n ∈ ns, flags.getD n false = true → n < s.2.size →
      (ns.foldl (visit flags) s).2.getD n false = true := by
  intro ns
  induction ns with
  | nil =>
      intro s
      exact ⟨Advances.refl s, fun n hn => (by cases hn)⟩
  | cons k ns ih =>
      intro s
      obtain ⟨hfirst, hmarks⟩ := advances_visit flags s k
      obtain ⟨hrest, hothers⟩ := ih (visit flags s k)
      refine ⟨hfirst.trans hrest, fun n hn hflag hlt => ?_⟩
      rcases List.mem_cons.1 hn with rfl | hn
      · exact hrest.grows n (hmarks hflag hlt)
      · exact hothers n hn hflag (by rw [hfirst.size]; exact hlt)

/-- One step of the search: the top of the stack leaves it when its references have been visited. -/
theorem exploring_step (h : Exploring g flags (nt :: stack) reached) (hrule : g.rule? nt = some rule)
    {stack' : List Nat} {reached' : Flags}
    (hvisits : rule.nonterminals.foldl (visit flags) (stack, reached) = (stack', reached')) :
    Exploring g flags stack' reached' := by
  obtain ⟨hadvances, hmarks⟩ := advances_visits flags rule.nonterminals (stack, reached)
  rw [hvisits] at hadvances hmarks
  refine ⟨fun n hn => ?_, fun m other hm hout hother n hn hflag hlt => ?_⟩
  · rcases hadvances.marked n hn with hn | hn
    · exact hadvances.grows n (h.marked n (List.mem_cons_of_mem _ hn))
    · exact hn
  · have hsize : reached'.size = reached.size := hadvances.size
    rw [hsize] at hlt
    by_cases hmn : m = nt
    · subst hmn
      rw [hrule] at hother
      cases hother
      exact hmarks n hn hflag hlt
    · have hold : reached.getD m false = true := (hadvances.stacked m hm).resolve_right hout
      have hnot : ¬ m ∈ nt :: stack := by
        intro hmem
        rcases List.mem_cons.1 hmem with hmem | hmem
        · exact hmn hmem
        · exact hout (hadvances.keeps m hmem)
      exact hadvances.grows n (h.done m other hold hnot hother n hn hflag hlt)

/-- **The search marks all that can be reached.**  The stack and what is not marked bound the visits
that are needed, and then nothing is left on the stack. -/
theorem exploring_explore : ∀ (visits : Nat) {stack : List Nat} {reached : Flags},
    Exploring g flags stack reached → stack.length + reached.count false ≤ visits →
    Exploring g flags [] (explore g flags visits stack reached) ∧
      (explore g flags visits stack reached).size = reached.size ∧
      ∀ n, reached.getD n false = true → (explore g flags visits stack reached).getD n false = true := by
  intro visits
  induction visits with
  | zero =>
      intro stack reached h hroom
      have hempty : stack = [] := List.length_eq_zero_iff.1 (by omega)
      rw [hempty] at h
      exact ⟨h, rfl, fun n hn => hn⟩
  | succ visits ih =>
      intro stack reached h hroom
      cases stack with
      | nil => exact ⟨h, rfl, fun n hn => hn⟩
      | cons nt stack =>
          rw [List.length_cons] at hroom
          rw [explore]
          cases hrule : g.rule? nt with
          | none =>
              have hnext : Exploring g flags stack reached := by
                refine ⟨fun n hn => h.marked n (List.mem_cons_of_mem _ hn),
                  fun m other hm hout hother => h.done m other hm (fun hmem => ?_) hother⟩
                rcases List.mem_cons.1 hmem with hmem | hmem
                · rw [hmem, hrule] at hother
                  cases hother
                · exact hout hmem
              exact ih hnext (by omega)
          | some rule =>
              obtain ⟨hadvances, _⟩ := advances_visits flags rule.nonterminals (stack, reached)
              obtain ⟨stack', reached', hvisits⟩ : ∃ stack' reached',
                  rule.nonterminals.foldl (visit flags) (stack, reached) = (stack', reached') :=
                ⟨_, _, rfl⟩
              have hroom' := hadvances.room
              have hgrows := hadvances.grows
              have hsize := hadvances.size
              simp only [hvisits] at hroom' hgrows hsize ⊢
              obtain ⟨hdone, hsame, hmore⟩ := ih (exploring_step h hrule hvisits) (by omega)
              exact ⟨hdone, hsame.trans hsize, fun n hn => hmore n (hgrows n hn)⟩

/-- The root is the first nonterminal that owns a rule and is productive. -/
theorem root?_eq_some_iff {root : Nat} : root? g flags = some root ↔
    root < g.nonterminals.size ∧ (g.hasRule root = true ∧ flags.getD root false = true) ∧
      ∀ m < root, g.hasRule m = true → flags.getD m false = false := by
  rw [root?, map_fst_ownedRules, List.find?_filter, SymbolTable.ids, List.find?_range_eq_some]
  simp only [decide_eq_true_eq, List.mem_range, Bool.not_eq_true',
    decide_eq_false_iff_not, not_and, Bool.not_eq_true]
  tauto

theorem reachable_of_root? {root : Nat} (h : root? g flags = some root) :
    reachable g flags = explore g flags g.nonterminals.size [root]
      ((Array.replicate g.nonterminals.size false).setIfInBounds root true) := by
  rw [reachable, h]

/-- What is marked when the search begins is the root. -/
theorem getD_initial_marks {count root : Nat} (hroot : root < count) (n : Nat) :
    ((Array.replicate count false).setIfInBounds root true).getD n false = true ↔ n = root := by
  rw [getD_setIfInBounds (by rw [Array.size_replicate]; exact hroot), getD_replicate_false]
  split <;> simp [*]

/-- When the search has come to its end, nothing is left on the stack, and the root is marked. -/
theorem exploring_reachable {root : Nat} (h : root? g flags = some root) :
    Exploring g flags [] (reachable g flags) ∧ (reachable g flags).size = g.nonterminals.size ∧
      (reachable g flags).getD root false = true := by
  have hlt := (root?_eq_some_iff.1 h).1
  have hmark := getD_initial_marks hlt
  have hcount := count_setIfInBounds (Array.replicate g.nonterminals.size false) (n := root)
    (by rw [Array.getElem?_replicate, if_pos hlt])
  rw [Array.count_replicate_self] at hcount
  rw [reachable_of_root? h]
  generalize hinitial : (Array.replicate g.nonterminals.size false).setIfInBounds root true = initial
    at hmark hcount
  have hstart : Exploring g flags [root] initial := by
    refine ⟨fun n hn => (hmark n).2 (List.mem_singleton.1 hn), fun m other hm hout => ?_⟩
    exact absurd (List.mem_singleton.2 ((hmark m).1 hm)) hout
  have hroom : [root].length + initial.count false ≤ g.nonterminals.size := by
    rw [List.length_singleton]
    omega
  obtain ⟨hdone, hsame, hmore⟩ := exploring_explore g.nonterminals.size hstart hroom
  refine ⟨hdone, hsame.trans ?_, hmore root ((hmark root).2 rfl)⟩
  rw [← hinitial, Array.size_setIfInBounds, Array.size_replicate]

theorem reachable_root {root : Nat} (h : root? g flags = some root) :
    (reachable g flags).getD root false = true := (exploring_reachable h).2.2

/-- Without a root nothing is reached. -/
theorem exists_root?_of_reachable (h : (reachable g flags).getD n false = true) :
    ∃ root, root? g flags = some root := by
  unfold reachable at h
  split at h
  · next root hroot => exact ⟨root, hroot⟩
  · rw [getD_replicate_false] at h
    cases h

/-- The productive references of what is reached are reached. -/
theorem reachable_closed (hm : (reachable g flags).getD m false = true)
    (hrule : g.rule? m = some rule) (hn : n ∈ rule.nonterminals) (hflag : flags.getD n false = true)
    (hlt : n < g.nonterminals.size) : (reachable g flags).getD n false = true := by
  obtain ⟨root, hroot⟩ := exists_root?_of_reachable hm
  obtain ⟨hdone, hsize, _⟩ := exploring_reachable hroot
  exact hdone.done m rule hm List.not_mem_nil hrule n hn hflag (by rw [hsize]; exact hlt)

/-! ### Nothing else is reached -/

def AllHave (P : Nat → Prop) (s : List Nat × Flags) : Prop :=
  (∀ n ∈ s.1, P n) ∧ ∀ n, s.2.getD n false = true → P n

theorem allHave_visit {P : Nat → Prop} {s : List Nat × Flags} (hs : AllHave P s)
    (hn : flags.getD n false = true → P n) : AllHave P (visit flags s n) := by
  obtain ⟨stack, reached⟩ := s
  unfold visit
  dsimp only
  split
  · next hvisit =>
      rw [Bool.and_eq_true, Bool.not_eq_true'] at hvisit
      have hlt := (Array.getElem?_eq_some_iff.1 (getElem?_of_getD_true hvisit.2)).1
      refine ⟨fun k hk => ?_, fun k hk => ?_⟩
      · rcases List.mem_cons.1 hk with hk | hk
        · rw [hk]
          exact hn hvisit.1
        · exact hs.1 k hk
      · rw [getD_setIfInBounds hlt] at hk
        split at hk
        · next hkn =>
            rw [hkn]
            exact hn hvisit.1
        · exact hs.2 k hk
  · exact hs

theorem allHave_visits {P : Nat → Prop} : ∀ (ns : List Nat) {s : List Nat × Flags}, AllHave P s →
    (∀ n ∈ ns, flags.getD n false = true → P n) → AllHave P (ns.foldl (visit flags) s) := by
  intro ns
  induction ns with
  | nil =>
      intro s hs _
      exact hs
  | cons k ns ih =>
      intro s hs hns
      exact ih (allHave_visit hs (hns k (List.mem_cons_self ..)))
        fun n hn => hns n (List.mem_cons_of_mem k hn)

/-- A property that goes from a nonterminal to its productive references holds of all that the search
marks, if it holds where the search begins. -/
theorem allHave_explore {P : Nat → Prop}
    (hstep : ∀ m rule n, P m → g.rule? m = some rule → n ∈ rule.nonterminals →
      flags.getD n false = true → P n) (visits : Nat) : ∀ {stack : List Nat} {reached : Flags},
    AllHave P (stack, reached) →
      ∀ n, (explore g flags visits stack reached).getD n false = true → P n := by
  induction visits with
  | zero =>
      intro stack reached hs
      exact hs.2
  | succ visits ih =>
      intro stack reached hs
      cases stack with
      | nil => exact hs.2
      | cons nt stack =>
          have hrest : AllHave P (stack, reached) :=
            ⟨fun n hn => hs.1 n (List.mem_cons_of_mem nt hn), hs.2⟩
          rw [explore]
          cases hrule : g.rule? nt with
          | none => exact ih hrest
          | some rule =>
              exact ih (allHave_visits rule.nonterminals hrest fun n hn hflag =>
                hstep nt rule n (hs.1 nt (List.mem_cons_self ..)) hrule hn hflag)

/-- **Only what is linked to the root is reached.** -/
theorem reachable_sound {P : Nat → Prop} (hroot : ∀ root, root? g flags = some root → P root)
    (hstep : ∀ m rule n, P m → g.rule? m = some rule → n ∈ rule.nonterminals →
      flags.getD n false = true → P n) (h : (reachable g flags).getD n false = true) : P n := by
  obtain ⟨root, hfirst⟩ := exists_root?_of_reachable h
  rw [reachable_of_root? hfirst] at h
  refine allHave_explore hstep g.nonterminals.size ⟨fun k hk => ?_, fun k hk => ?_⟩ n h
  · rw [List.mem_singleton.1 hk]
    exact hroot root hfirst
  · rw [(getD_initial_marks (root?_eq_some_iff.1 hfirst).1 k).1 hk]
    exact hroot root hfirst

/-! ### Taking rules away -/

/-- The second grammar is the first one with fewer rules. -/
structure Thins (g g' : Grammar) : Prop where
  terminals : g'.terminals = g.terminals
  nonterminals : g'.nonterminals = g.nonterminals
  semantics : g'.semantics = g.semantics
  places : g'.rules.size = g.rules.size
  rule : ∀ {m : Nat} {rule : Rule}, g'.rule? m = some rule → g.rule? m = some rule

theorem Thins.refl (g : Grammar) : Thins g g := ⟨rfl, rfl, rfl, rfl, fun h => h⟩

theorem Thins.trans {g'' : Grammar} (h : Thins g g') (h' : Thins g' g'') : Thins g g'' :=
  ⟨h'.terminals.trans h.terminals, h'.nonterminals.trans h.nonterminals, h'.semantics.trans h.semantics,
    h'.places.trans h.places, fun hrule => h.rule (h'.rule hrule)⟩

theorem thins_takeRule (g : Grammar) (nt : Nat) : Thins g (g.takeRule nt) := by
  refine ⟨rfl, rfl, rfl, size_rules_takeRule g nt, fun {m rule} hrule => ?_⟩
  rw [rule?_takeRule] at hrule
  split at hrule
  · cases hrule
  · exact hrule

theorem Thins.wellFormed (h : Thins g g') (hg : g.WellFormed) : g'.WellFormed := by
  have hgrows : g.Grows g' := by
    refine ⟨?_, ?_, ?_⟩
    · rw [h.terminals]
      exact .refl _
    · rw [h.nonterminals]
      exact .refl _
    · rw [h.semantics]
      exact .refl _
  exact hg.of_grows hgrows h.rule

theorem Thins.orderly (h : Thins g g') (hg : g.Orderly) : g'.Orderly where
  toWellFormed := h.wellFormed hg.toWellFormed
  places := by
    rw [h.places, h.nonterminals]
    exact hg.places
  readable := by
    refine ⟨?_, ?_, ?_⟩
    · rw [h.nonterminals]
      exact hg.readable.nonterminals
    · rw [h.semantics]
      exact hg.readable.semantics
    · rw [h.terminals]
      exact hg.readable.terminals

/-- Fewer rules, fewer words. -/
theorem Thins.language (h : Thins g g') (hw : g'.Language nt w) : g.Language nt w := by
  refine language_least (fun m rule w hm hrule hspells => ?_) hw
  rw [h.nonterminals] at hm
  exact language_iff.2 ⟨hm, rule, h.rule hrule, derives_iff_spells.2 hspells⟩

theorem foldl_takeRule_spec (nts : List Nat) : ∀ g : Grammar,
    Thins g (nts.foldl takeRule g) ∧
      ∀ m, (nts.foldl takeRule g).rule? m = if m ∈ nts then none else g.rule? m := by
  induction nts with
  | nil =>
      intro g
      exact ⟨Thins.refl g, fun m => by simp⟩
  | cons nt nts ih =>
      intro g
      obtain ⟨hthins, hrules⟩ := ih (g.takeRule nt)
      refine ⟨(thins_takeRule g nt).trans hthins, fun m => ?_⟩
      rw [List.foldl_cons, hrules, rule?_takeRule]
      by_cases hmem : m ∈ nts
      · rw [if_pos hmem, if_pos (List.mem_cons_of_mem _ hmem)]
      · rw [if_neg hmem]
        simp only [List.mem_cons, hmem, or_false]

theorem mem_unmarked_iff {marks : Flags} : m ∈ unmarked g marks ↔
    m < g.nonterminals.size ∧ g.hasRule m = true ∧ ¬ marks.getD m false = true := by
  simp only [unmarked, map_fst_ownedRules, SymbolTable.ids, List.mem_filter, List.mem_range,
    Bool.not_eq_true', Bool.not_eq_true, and_assoc]

theorem mem_unmarked (hg : g.WellFormed) {marks : Flags} :
    m ∈ unmarked g marks ↔ g.hasRule m = true ∧ ¬ marks.getD m false = true := by
  rw [mem_unmarked_iff]
  refine and_iff_right_of_imp fun h => ?_
  obtain ⟨rule, hrule⟩ := Option.isSome_iff_exists.1 h.1
  exact hg.owned hrule

/-- What has no mark loses its rule, but for rules that are stored past the table. -/
theorem rule?_clearUnmarked (g : Grammar) (marks : Flags) (m : Nat) :
    (clearUnmarked g marks).grammar.rule? m =
      if m < g.nonterminals.size ∧ ¬ marks.getD m false = true then none else g.rule? m := by
  rw [show (clearUnmarked g marks).grammar = (unmarked g marks).foldl takeRule g from rfl,
    (foldl_takeRule_spec (unmarked g marks) g).2]
  simp only [mem_unmarked_iff, hasRule]
  cases g.rule? m with
  | none => split <;> split <;> rfl
  | some rule => simp

/-- In a well-formed grammar no rules are stored past the table. -/
theorem rule?_unless (hg : g.WellFormed) (marks : Flags) (m : Nat) :
    (if m < g.nonterminals.size ∧ ¬ marks.getD m false = true then none else g.rule? m) =
      if marks.getD m false = true then g.rule? m else none := by
  cases hrule : g.rule? m with
  | none => split <;> split <;> rfl
  | some rule =>
      by_cases hmark : marks.getD m false = true
      · rw [if_neg fun h => h.2 hmark, if_pos hmark]
      · rw [if_pos ⟨hg.owned hrule, hmark⟩, if_neg hmark]

/-- What has a mark keeps its rule, and what has none loses it. -/
theorem clearUnmarked_spec (hg : g.WellFormed) (marks : Flags) :
    Thins g (clearUnmarked g marks).grammar ∧ ∀ m, (clearUnmarked g marks).grammar.rule? m =
      if marks.getD m false = true then g.rule? m else none := by
  refine ⟨(foldl_takeRule_spec (unmarked g marks) g).1, fun m => ?_⟩
  rw [rule?_clearUnmarked, rule?_unless hg]

/-- Taking useless rules away leaves fewer rules and all names. -/
theorem thins_removeUseless (g : Grammar) : Thins g (removeUseless g).grammar :=
  (foldl_takeRule_spec _ g).1.trans (foldl_takeRule_spec _ _).1

/-! ### What stays -/

/-- The marks that decide which rules stay: what the search reaches once the rules of unproductive
nonterminals are gone. -/
def marks (g : Grammar) : Flags :=
  reachable (clearUnmarked g (productive g).value).grammar (productive g).value

/-- What is marked is productive. -/
theorem flag_of_mark (h : (marks g).getD n false = true) :
    (productive g).value.getD n false = true :=
  reachable_sound (P := fun n => (productive g).value.getD n false = true)
    (fun _ hroot => (root?_eq_some_iff.1 hroot).2.1.2) (fun _ _ _ _ _ _ hflag => hflag) h

theorem nonterminals_clearUnmarked (g : Grammar) (marks : Flags) :
    (clearUnmarked g marks).grammar.nonterminals = g.nonterminals :=
  (foldl_takeRule_spec (unmarked g marks) g).1.nonterminals

/-- What is not marked loses its rule, but for rules that are stored past the table. -/
theorem rule?_removeUseless_of_marks (g : Grammar) (m : Nat) : (removeUseless g).grammar.rule? m =
    if m < g.nonterminals.size ∧ ¬ (marks g).getD m false = true then none else g.rule? m := by
  show (clearUnmarked (clearUnmarked g (productive g).value).grammar (marks g)).grammar.rule? m = _
  rw [rule?_clearUnmarked, rule?_clearUnmarked, nonterminals_clearUnmarked]
  by_cases hmark : (marks g).getD m false = true
  · simp only [hmark, flag_of_mark hmark, not_true_eq_false, and_false, if_false]
  · by_cases hlt : m < g.nonterminals.size
    · simp only [hmark, hlt, Bool.false_eq_true, not_false_eq_true, and_self, if_true]
    · simp only [hlt, false_and, if_false]

/-- What is marked keeps its rule, and what is not marked loses it. -/
theorem rule?_removeUseless (hg : g.WellFormed) (m : Nat) : (removeUseless g).grammar.rule? m =
    if (marks g).getD m false = true then g.rule? m else none := by
  rw [rule?_removeUseless_of_marks, rule?_unless hg]

/-- The productive references of what is marked are marked. -/
theorem mark_of_reference (hm : (marks g).getD m false = true) (hrule : g.rule? m = some rule)
    (hn : n ∈ rule.references) (hflag : (productive g).value.getD n false = true) :
    (marks g).getD n false = true := by
  have hkept : (clearUnmarked g (productive g).value).grammar.rule? m = some rule := by
    rw [rule?_clearUnmarked, if_neg fun h => h.2 (flag_of_mark hm)]
    exact hrule
  refine reachable_closed hm hkept (List.mem_eraseDups.2 hn) hflag ?_
  rw [nonterminals_clearUnmarked]
  exact lt_of_flag hflag

/-- **Marked nonterminals keep their words.**  The words are carried along in the induction, for they
say which references are marked. -/
theorem language_of_mark (hg : g.WellFormed) (hconv : (productive g).converged = true)
    (hmark : (marks g).getD m false = true) :
    (removeUseless g).grammar.Language m w ↔ g.Language m w := by
  have hthins := thins_removeUseless g
  refine ⟨hthins.language, fun hw => ?_⟩
  have hall : g.Language m w ∧
      ((marks g).getD m false = true → (removeUseless g).grammar.Language m w) := by
    refine language_least (S := fun m w => g.Language m w ∧
      ((marks g).getD m false = true → (removeUseless g).grammar.Language m w)) ?_ hw
    intro m rule w hm hrule hspells
    refine ⟨language_iff.2 ⟨hm, rule, hrule,
      derives_iff_spells.2 (hspells.mono fun _ _ h => h.1)⟩, fun hmark => ?_⟩
    have hkept : (removeUseless g).grammar.rule? m = some rule := by
      rw [rule?_removeUseless hg, if_pos hmark]
      exact hrule
    have hspells' : rule.Spells (Letter 0) (removeUseless g).grammar.Language w := by
      refine hspells.mono_on (fun _ _ _ h => h) (fun n v hn h => h.2 ?_) rule.over_references
      exact mark_of_reference hmark hrule hn (flag_of_language hconv h.1)
    exact language_iff.2 ⟨by rw [hthins.nonterminals]; exact hm, rule, hkept,
      derives_iff_spells.2 hspells'⟩
  exact hall.2 hmark

/-- A productive start symbol is marked. -/
theorem mark_zero (hg : g.WellFormed) (hrule : g.rule? 0 = some rule)
    (hflag : (productive g).value.getD 0 false = true) : (marks g).getD 0 false = true := by
  obtain ⟨hfirst, hfirstRules⟩ := clearUnmarked_spec hg (productive g).value
  refine reachable_root (root?_eq_some_iff.2 ⟨?_, ⟨?_, hflag⟩, fun m hm => by omega⟩)
  · rw [hfirst.nonterminals]
    exact hg.owned hrule
  · rw [hasRule, hfirstRules, if_pos hflag, hrule]
    rfl

/-- **Taking useless rules away keeps the words of the start symbol**, once the passes have converged.  If
it loses its rule, it had no words. -/
theorem language_removeUseless (hg : g.WellFormed) (hconv : (productive g).converged = true) :
    (removeUseless g).grammar.Language 0 w ↔ g.Language 0 w := by
  refine ⟨(thins_removeUseless g).language, fun hw => ?_⟩
  obtain ⟨_, rule, hrule, _⟩ := language_iff.1 hw
  exact (language_of_mark hg hconv (mark_zero hg hrule (flag_of_language hconv hw))).2 hw

end Useless

end RuleGrammar
