import Mathlib.Data.List.Basic
import RuleGrammar.Grammar.Build
import RuleGrammar.Proofs.Convergence
import RuleGrammar.Proofs.Recognition
import RuleGrammar.Proofs.WellFormed

/-!
# Filling a chart in place

A chart can be filled in place: one pass after another goes over all rules and all positions of the word,
what it finds counts at once for the places behind, and the passes go on until one of them adds nothing.
Inside a pass an iteration is followed with a stack of the positions from which it has yet to go on.
Neither the passes nor the searches have a bound.  They come to an end all the same, since each pass but
the last adds an end position and each look takes a position off the stack; and although the entries of a
chart depend on each other, so that every order of finding them is possible, the end is always the full
chart of the word.

* `Chart.Matches`: what following a tree through the word comes to, as a relation; `Matches.unique`,
  `matches_iff`: it comes to the end positions `Chart.ends`.
* `Chart.enter`, `Chart.Fills`: one pass; `fills_iff`, `raises_fill`.
* `Chart.Saturates`: the passes; `saturates_iff`: they end in `Grammar.chart`.
* `Grammar.Answers`: an answer of the recognizer; `answer_unique_and_recognizes_iff_derives`.
-/

namespace RuleGrammar

namespace Chart

open FixedPoint

variable {g : Grammar} {w : Word} {chart next final : Chart} {count length : Nat} {t rule : Rule}
  {nt start stop : Nat} {found found' : NumberSet} {items : List (Nat × Rule × Nat)}

/-! ### Following a tree -/

/-- `chart.Matches w t start found` says that following the tree `t` through the word `w` from `start`, by
what the chart knows, comes to an end with the end positions `found`.  There is no end where a position
has no place in the row of a nonterminal. -/
inductive Matches (chart : Chart) (w : Word) : Rule → Nat → NumberSet → Prop where
  | empty {start : Nat} : Matches chart w (.terminal 0) start (.singleton start)
  | letter {a start : Nat} (hne : a ≠ 0) (hletter : w[start]? = some a) :
      Matches chart w (.terminal a) start (.singleton (start + 1))
  | otherLetter {a start : Nat} (hne : a ≠ 0) (hletter : w[start]? ≠ some a) :
      Matches chart w (.terminal a) start .empty
  | semantic {a start : Nat} : Matches chart w (.semantic a) start (.singleton start)
  | reference {nt start : Nat} {opened : Bool}
      (hplace : ∀ row, chart[nt]? = some row → start < row.size) :
      Matches chart w (.reference nt opened) start (chart.get nt start)
  | seq {l r : Rule} {start : Nat} {middles : NumberSet} {ends : Nat → NumberSet}
      (hl : Matches chart w l start middles) (hr : ∀ m ∈ middles, Matches chart w r m (ends m)) :
      Matches chart w (.seq l r) start (middles.unionMap ends)
  | alt {l r : Rule} {start : Nat} {left right : NumberSet} (hl : Matches chart w l start left)
      (hr : Matches chart w r start right) : Matches chart w (.alt l r) start (left.union right)
  -- each position that is looked at is followed through `r`, and each end of that through `l`
  | iter {l r : Rule} {start : Nat} {first found : NumberSet} {middles ends : Nat → NumberSet}
      (hl : Matches chart w l start first) (hr : ∀ m ∈ found, Matches chart w r m (middles m))
      (hround : ∀ m ∈ found, ∀ k ∈ middles m, Matches chart w l k (ends k))
      (hsearch : NumberSet.Explores (fun m => (middles m).toList.flatMap fun k => (ends k).toList)
        first first.toList.reverse found) :
      Matches chart w (.iter l r) start found

/-- Following a tree comes to one set of end positions only. -/
theorem Matches.unique (h : chart.Matches w t start found) :
    ∀ {found' : NumberSet}, chart.Matches w t start found' → found = found' := by
  induction h with
  | empty =>
      intro found' h'
      cases h' with
      | empty => rfl
      | letter hne | otherLetter hne => exact absurd rfl hne
  | letter hne hletter =>
      intro found' h'
      cases h' with
      | empty => exact absurd rfl hne
      | letter => rfl
      | otherLetter _ hnot => exact absurd hletter hnot
  | otherLetter hne hletter =>
      intro found' h'
      cases h' with
      | empty => exact absurd rfl hne
      | letter _ hyes => exact absurd hyes hletter
      | otherLetter => rfl
  | semantic | reference =>
      intro found' h'
      cases h'
      rfl
  | seq _ _ ihl ihr =>
      intro found' h'
      cases h' with
      | seq hl hr =>
          rw [← ihl hl] at hr ⊢
          exact NumberSet.unionMap_congr fun m hm => ihr m hm (hr m hm)
  | alt _ _ ihl ihr =>
      intro found' h'
      cases h' with
      | alt hl hr => rw [ihl hl, ihr hr]
  | iter _ _ _ hsearch ihl ihr ihround =>
      intro found' h'
      cases h' with
      | iter hl hr hround hsearch' =>
          rw [← ihl hl] at hsearch'
          refine hsearch.eq_of_agree hsearch' (fun m hm => List.mem_reverse.1 hm) fun m hm hm' => ?_
          have hround' := hround m hm'
          rw [← ihr m hm (hr m hm')] at hround' ⊢
          exact List.flatMap_congr fun k hk =>
            congrArg NumberSet.toList (ihround m hm k hk (hround' k hk))

/-- **Following a tree comes to an end, with the end positions of the tree.** -/
theorem matches_ends (hfits : chart.Fits count w.length) (t : Rule) :
    ∀ start, start ≤ w.length → chart.Matches w t start (chart.ends w t start) := by
  induction t with
  | terminal a =>
      intro start _
      unfold ends
      split
      · next hzero =>
          subst hzero
          exact .empty
      · next hne =>
          split
          · next hletter => exact .letter hne hletter
          · next hletter => exact .otherLetter hne hletter
  | semantic a =>
      intro start _
      exact .semantic
  | reference nt opened =>
      intro start hstart
      refine .reference fun row hrow => ?_
      rw [hfits.places hrow]
      exact Nat.lt_succ_of_le hstart
  | seq l r ihl ihr =>
      intro start hstart
      exact .seq (ihl start hstart) fun m hm => ihr m (ends_le hfits l start hstart m hm)
  | alt l r ihl ihr =>
      intro start hstart
      exact .alt (ihl start hstart) (ihr start hstart)
  | iter l r ihl ihr =>
      intro start hstart
      have hinside := ends_le hfits (.iter l r) start hstart
      have hfirst : ∀ n ∈ chart.ends w l start, n < w.length + 1 := fun n hn =>
        Nat.lt_succ_of_le (ends_le hfits l start hstart n hn)
      have hround : ∀ m n, n ∈ (chart.ends w r m).unionMap (chart.ends w l) ↔
          n ∈ (chart.ends w r m).toList.flatMap fun k => (chart.ends w l k).toList := by
        intro m n
        rw [NumberSet.mem_unionMap, List.mem_flatMap]
        rfl
      refine .iter (ihl start hstart) (fun m hm => ihr m (hinside m hm))
        (fun m hm k hk => ihl k (ends_le hfits r m (hinside m hm) k hk)) ?_
      refine (NumberSet.explores_iff_eq_closure hround hfirst (fun m n hm hn => ?_) (Nat.le_refl _)).2 rfl
      obtain ⟨k, hk, hn⟩ := NumberSet.mem_unionMap.1 ((hround m n).2 hn)
      have hk' := ends_le hfits r m (Nat.le_of_lt_succ hm) k hk
      exact Nat.lt_succ_of_le (ends_le hfits l k hk' n hn)

theorem matches_iff (hfits : chart.Fits count w.length) (hstart : start ≤ w.length) :
    chart.Matches w t start found ↔ found = chart.ends w t start := by
  have hends := matches_ends hfits t start hstart
  exact ⟨fun h => h.unique hends, fun h => h ▸ hends⟩

/-! ### Entering end positions -/

/-- The chart with one more end position, and whether it is new. -/
def add (nt start stop : Nat) (chart : Chart) : Chart × Bool :=
  (chart.modify nt fun row => row.modify start fun slot => slot.insert stop,
    !(chart.get nt start).contains stop)

/-- The chart with end positions entered one after the other, and whether any of them is new. -/
def enter (nt start : Nat) (found : NumberSet) : Chart → Chart × Bool :=
  sweep (add nt start) found.toList

theorem mem_get_add (hfits : chart.Fits count length) (hnt : nt < count) (hstart : start ≤ length)
    {other place n : Nat} : n ∈ (add nt start stop chart).1.get other place ↔
      n ∈ chart.get other place ∨ (other = nt ∧ place = start ∧ n = stop) := by
  show n ∈ get (chart.modify nt _) other place ↔ _
  unfold get
  rw [Array.getElem?_modify]
  by_cases hother : nt = other
  · subst hother
    have hlt : nt < chart.size := by rw [hfits.rows]; exact hnt
    have hrow := hfits.places (Array.getElem?_eq_getElem hlt)
    rw [if_pos rfl, Array.getElem?_eq_getElem hlt, Option.map_some]
    dsimp only
    rw [Array.getElem?_modify]
    by_cases hplace : start = place
    · subst hplace
      have hlt' : start < chart[nt].size := by omega
      rw [if_pos rfl, Array.getElem?_eq_getElem hlt', Option.map_some, Option.getD_some,
        Option.getD_some, NumberSet.mem_insert]
      simp [or_comm]
    · simp [hplace, Ne.symm hplace]
  · simp [hother, Ne.symm hother]

theorem fits_add (hfits : chart.Fits count length) (hnt : nt < count) (hstart : start ≤ length)
    (hstop : stop ≤ length) : (add nt start stop chart).1.Fits count length where
  rows := by
    show (chart.modify nt _).size = count
    rw [Array.size_modify]
    exact hfits.rows
  places := by
    intro other row hrow
    change (chart.modify nt _)[other]? = some row at hrow
    rw [Array.getElem?_modify] at hrow
    split at hrow
    · obtain ⟨old, hold, rfl⟩ := Option.map_eq_some_iff.1 hrow
      rw [Array.size_modify]
      exact hfits.places hold
    · exact hfits.places hrow
  inside := by
    intro other place n hn
    rcases (mem_get_add hfits hnt hstart).1 hn with hn | ⟨_, _, rfl⟩
    · exact hfits.inside hn
    · exact hstop

/-- The chart of a grammar and a word has a place for everything, and all that it knows is derived. -/
def Valid (g : Grammar) (w : Word) (chart : Chart) : Prop :=
  chart.Fits g.nonterminals.size w.length ∧ chart.Sound g w

theorem valid_empty (g : Grammar) (w : Word) : (empty g.nonterminals.size w.length).Valid g w := by
  refine ⟨fits_empty _ _, fun nt start stop hstop => ?_⟩
  rw [get_empty] at hstop
  exact absurd hstop (NumberSet.not_mem_empty stop)

/-- Entering a derived end position keeps a chart valid, and adds to what it knows if it is new. -/
theorem raises_add (hnt : nt < g.nonterminals.size)
    (hder : ∃ u, w.Between start u stop ∧ Derives g (.reference nt false) u) :
    Raises (Valid g w) (weight g.nonterminals.size w.length) (add nt start stop) := by
  obtain ⟨u, hu, hder⟩ := hder
  have hstart := hu.start_le
  have hfits : ∀ {chart : Chart}, chart.Valid g w →
      (add nt start stop chart).1.Fits g.nonterminals.size w.length :=
    fun hvalid => fits_add hvalid.1 hnt hstart hu.stop_le
  refine ⟨fun {chart} hvalid => ⟨hfits hvalid, fun other place n hn => ?_⟩, fun {chart} hvalid hno => ?_,
    fun {chart} hvalid hyes => ?_⟩
  · rcases (mem_get_add hvalid.1 hnt hstart).1 hn with hn | ⟨rfl, rfl, rfl⟩
    · exact hvalid.2 other place n hn
    · exact ⟨u, hu, hder⟩
  · have hmem : stop ∈ chart.get nt start := by simpa [add] using hno
    refine eq_of_get_eq (hfits hvalid) hvalid.1 fun other place _ _ => NumberSet.ext fun n => ?_
    rw [mem_get_add hvalid.1 hnt hstart]
    refine or_iff_left_of_imp ?_
    rintro ⟨rfl, rfl, rfl⟩
    exact hmem
  · have hnew : ¬ stop ∈ chart.get nt start := fun hmem => by
      simp [add, NumberSet.contains_iff.2 hmem] at hyes
    have hmem : stop ∈ (add nt start stop chart).1.get nt start :=
      (mem_get_add hvalid.1 hnt hstart).2 (Or.inr ⟨rfl, rfl, rfl⟩)
    refine weight_lt_of_get_ne (fun other place n hn => (mem_get_add hvalid.1 hnt hstart).2 (Or.inl hn))
      hnt hstart ?_
    intro hsame
    exact hnew (hsame ▸ hmem)

/-! ### One pass -/

/-- The rules with the positions at which they can begin, in the order of a pass. -/
def places (g : Grammar) (w : Word) : List (Nat × Rule × Nat) :=
  g.ownedRules.flatMap fun (nt, rule) => (List.range (w.length + 1)).map fun start => (nt, rule, start)

theorem mem_places_iff : (nt, rule, start) ∈ places g w ↔
    nt < g.nonterminals.size ∧ g.rule? nt = some rule ∧ start ≤ w.length := by
  unfold places
  simp only [List.mem_flatMap, List.mem_map, List.mem_range, Prod.exists, Prod.mk.injEq,
    Grammar.mem_ownedRules, Nat.lt_succ_iff]
  constructor
  · rintro ⟨_, _, ⟨hnt, hrule⟩, _, hstart, rfl, rfl, rfl⟩
    exact ⟨hnt, hrule, hstart⟩
  · rintro ⟨hnt, hrule, hstart⟩
    exact ⟨nt, rule, ⟨hnt, hrule⟩, start, hstart, rfl, rfl, rfl⟩

/-- `Fills w items s s'` says that a pass over places, each of which is filled with what following its rule
comes to, leads from the chart and the report in `s` to those in `s'`.  Every place is there to be
filled. -/
inductive Fills (w : Word) : List (Nat × Rule × Nat) → Chart × Bool → Chart × Bool → Prop where
  | done (state : Chart × Bool) : Fills w [] state state
  | fill {nt start : Nat} {rule : Rule} {items : List (Nat × Rule × Nat)} {chart : Chart} {changed : Bool}
      {found : NumberSet} {row : Array NumberSet} {state : Chart × Bool}
      (hmatch : chart.Matches w rule start found) (hrow : chart[nt]? = some row) (hplace : start < row.size)
      (hrest : Fills w items ((enter nt start found chart).1, changed || (enter nt start found chart).2)
        state) : Fills w ((nt, rule, start) :: items) (chart, changed) state

def fill (w : Word) (item : Nat × Rule × Nat) (chart : Chart) : Chart × Bool :=
  enter item.1 item.2.2 (chart.ends w item.2.1 item.2.2) chart

/-- Filling a place keeps a chart valid, and adds to what it knows if it reports so. -/
theorem raises_fill {item : Nat × Rule × Nat} (hitem : item ∈ places g w) :
    Raises (Valid g w) (weight g.nonterminals.size w.length) (fill w item) := by
  obtain ⟨nt, rule, start⟩ := item
  obtain ⟨hnt, hrule, hstart⟩ := mem_places_iff.1 hitem
  have henter : ∀ {chart : Chart}, chart.Valid g w → Raises (Valid g w)
      (weight g.nonterminals.size w.length) (enter nt start (chart.ends w rule start)) := by
    intro chart hvalid
    refine sweep_raises fun stop hstop => raises_add hnt ?_
    exact exists_derives_of_rule hvalid.2 hnt hrule hstart hstop
  exact ⟨fun hvalid => (henter hvalid).keeps hvalid, fun hvalid => (henter hvalid).unchanged hvalid,
    fun hvalid => (henter hvalid).raised hvalid⟩

/-- A pass over places of a valid chart comes to an end, with what filling them in turn comes to. -/
theorem fills_iff (hitems : ∀ item ∈ items, item ∈ places g w) {state : Chart × Bool} :
    ∀ {chart : Chart} {changed : Bool}, chart.Valid g w → (Fills w items (chart, changed) state ↔
      state = ((sweep (fill w) items chart).1, changed || (sweep (fill w) items chart).2)) := by
  induction items with
  | nil =>
      intro chart changed _
      have hnil : sweep (fill w) [] chart = (chart, false) := rfl
      rw [hnil, Bool.or_false]
      constructor
      · intro h
        cases h
        rfl
      · rintro rfl
        exact .done _
  | cons item items ih =>
      intro chart changed hvalid
      have hitem := hitems item (List.mem_cons_self ..)
      have hnext := (raises_fill hitem).keeps hvalid
      have hrest := @ih (fun other hmem => hitems other (List.mem_cons_of_mem item hmem))
        (fill w item chart).1 (changed || (fill w item chart).2) hnext
      obtain ⟨nt, rule, start⟩ := item
      obtain ⟨hnt, _, hstart⟩ := mem_places_iff.1 hitem
      rw [sweep_cons, ← Bool.or_assoc, ← hrest]
      constructor
      · intro h
        cases h with
        | fill hmatch _ _ hmore =>
            rw [(matches_iff hvalid.1 hstart).1 hmatch] at hmore
            exact hmore
      · intro hmore
        have hrow := Array.getElem?_eq_getElem (show nt < chart.size by rw [hvalid.1.rows]; exact hnt)
        refine .fill ((matches_iff hvalid.1 hstart).2 rfl) hrow ?_ hmore
        rw [hvalid.1.places hrow]
        exact Nat.lt_succ_of_le hstart

def pass (g : Grammar) (w : Word) : Chart → Chart × Bool := sweep (fill w) (places g w)

theorem raises_pass (g : Grammar) (w : Word) :
    Raises (Valid g w) (weight g.nonterminals.size w.length) (pass g w) :=
  sweep_raises fun _ hitem => raises_fill hitem

theorem fills_places_iff (hvalid : chart.Valid g w) {state : Chart × Bool} :
    Fills w (places g w) (chart, false) state ↔ state = pass g w chart := by
  rw [fills_iff (fun _ hitem => hitem) hvalid, Bool.false_or]
  rfl

/-- A chart to which a pass adds nothing is full. -/
theorem grow_eq_of_pass_unchanged (hvalid : chart.Valid g w) (hno : (pass g w chart).2 = false) :
    chart.grow g w = chart := by
  have hmoves := moves_of_sweep_unchanged (fun _ hitem => (raises_fill hitem).unchanged hvalid) hno
  refine eq_of_get_eq (fits_grow hvalid.1) hvalid.1 fun nt start _ _ => NumberSet.ext fun stop => ?_
  rw [mem_get_grow hvalid.1]
  refine or_iff_left_of_imp ?_
  rintro ⟨hnt, hstart, rule, hrule, hstop⟩
  have hfill := hmoves (nt, rule, start) (mem_places_iff.2 ⟨hnt, hrule, hstart⟩)
  have hadd : add nt start stop chart = (chart, false) := by
    refine moves_of_sweep_unchanged (fun n hn => ?_) (congrArg Prod.snd hfill) stop hstop
    exact (raises_add hnt (exists_derives_of_rule hvalid.2 hnt hrule hstart hn)).unchanged hvalid
  simpa [add] using congrArg Prod.snd hadd

/-! ### All passes -/

/-- `Saturates g w chart final` says that pass after pass over all places, from `chart` until one reports
no change, comes to an end with the chart `final`. -/
inductive Saturates (g : Grammar) (w : Word) : Chart → Chart → Prop where
  | settled {chart final : Chart} (hpass : Fills w (places g w) (chart, false) (final, false)) :
      Saturates g w chart final
  | again {chart next final : Chart} (hpass : Fills w (places g w) (chart, false) (next, true))
      (hrest : Saturates g w next final) : Saturates g w chart final

/-- What a full and valid chart knows is what is derived, so it is the chart of the word. -/
theorem eq_chart_of_full (hvalid : chart.Valid g w) (hfull : chart.grow g w = chart) :
    chart = g.chart w := by
  refine eq_of_get_eq hvalid.1 (g.fits_chart w) fun nt start _ hstart => NumberSet.ext fun stop => ?_
  constructor
  · intro hstop
    exact (g.mem_ends_iff w (.reference nt false) hstart).2 (hvalid.2 nt start stop hstop)
  · intro hstop
    obtain ⟨u, hu, hder⟩ := g.sound_chart w nt start stop hstop
    exact mem_ends_of_derives hvalid.1 hfull hder start stop hu

/-- The passes from a valid chart can end only in the chart of the word. -/
theorem Saturates.eq_chart (h : Saturates g w chart final) (hvalid : chart.Valid g w) :
    final = g.chart w := by
  induction h with
  | @settled chart final hpass =>
      have hpass' := (fills_places_iff hvalid).1 hpass
      have hno : (pass g w chart).2 = false := (congrArg Prod.snd hpass').symm
      have hsame : final = chart :=
        (congrArg Prod.fst hpass').trans ((raises_pass g w).unchanged hvalid hno)
      subst hsame
      exact eq_chart_of_full hvalid (grow_eq_of_pass_unchanged hvalid hno)
  | @again chart next final hpass _ ih =>
      have hpass' := (fills_places_iff hvalid).1 hpass
      have hnext : next = (pass g w chart).1 := congrArg Prod.fst hpass'
      exact ih (hnext ▸ (raises_pass g w).keeps hvalid)

/-- The passes from a valid chart end: each that reports a change leaves less to be added. -/
theorem exists_saturates (left : Nat) : ∀ chart : Chart, chart.Valid g w →
    g.nonterminals.size * (w.length + 1) * (w.length + 1)
      < chart.weight g.nonterminals.size w.length + left → ∃ final, Saturates g w chart final := by
  induction left with
  | zero =>
      intro chart hvalid hlt
      have hle := weight_le hvalid.1
      omega
  | succ left ih =>
      intro chart hvalid hlt
      have hpass := (fills_places_iff hvalid).2 rfl
      cases hreport : (pass g w chart).2 with
      | false =>
          rw [show pass g w chart = ((pass g w chart).1, false) from Prod.ext rfl hreport] at hpass
          exact ⟨_, .settled hpass⟩
      | true =>
          rw [show pass g w chart = ((pass g w chart).1, true) from Prod.ext rfl hreport] at hpass
          have hraised := (raises_pass g w).raised hvalid hreport
          obtain ⟨final, hfinal⟩ := ih _ ((raises_pass g w).keeps hvalid) (by omega)
          exact ⟨final, .again hpass hfinal⟩

/-- **The passes in place end in the chart of the word**, whatever the order in which they find the end
positions. -/
theorem saturates_iff : Saturates g w (empty g.nonterminals.size w.length) final ↔ final = g.chart w := by
  have hvalid := valid_empty g w
  constructor
  · intro h
    exact h.eq_chart hvalid
  · rintro rfl
    obtain ⟨final, hfinal⟩ := exists_saturates _ _ hvalid (Nat.lt_add_left _ (Nat.lt_succ_self _))
    exact hfinal.eq_chart hvalid ▸ hfinal

end Chart

/-! ### The answer -/

namespace Grammar

/-- `g.Answers t w answer` says that filling an empty chart in place and then following the tree through
the whole word comes to an end with that answer. -/
def Answers (g : Grammar) (t : Rule) (w : Word) (answer : Bool) : Prop :=
  ∃ final found, Chart.Saturates g w (Chart.empty g.nonterminals.size w.length) final ∧
    final.Matches w t 0 found ∧ answer = found.contains w.length

/-- **The recognizer decides derivability.**  The passes over the rules and the searches for the ends of
iterations have no bound, and yet for every grammar, tree and word they come to an end with one answer,
which is that of `recognizes`; and that says yes exactly if the tree derives the word. -/
theorem answer_unique_and_recognizes_iff_derives (g : Grammar) (t : Rule) (w : Word) :
    (∀ answer, g.Answers t w answer ↔ answer = g.recognizes t w) ∧
      (g.recognizes t w = true ↔ Derives g t w) := by
  refine ⟨fun answer => ?_, g.recognizes_iff t w⟩
  unfold Answers
  simp only [Chart.saturates_iff]
  constructor
  · rintro ⟨_, found, rfl, hmatch, rfl⟩
    rw [(Chart.matches_iff (g.fits_chart w) (Nat.zero_le _)).1 hmatch]
    rfl
  · rintro rfl
    exact ⟨g.chart w, _, rfl, (Chart.matches_iff (g.fits_chart w) (Nat.zero_le _)).2 rfl, rfl⟩

/-- Left recursion, ambiguity and the empty word at once. -/
example : (build "S : S , S ; 'a' ; @ .").toOption.map (fun g => g.accepts 0 [1, 1]) = some true := by
  decide +kernel

end Grammar

end RuleGrammar
