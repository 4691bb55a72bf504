import Mathlib.Algebra.BigOperators.Group.Finset.Basic
import Mathlib.Algebra.Order.BigOperators.Group.Finset
import Mathlib.Algebra.Group.Action.Defs
import RuleGrammar.Proofs.Closure
import RuleGrammar.Proofs.Derivation
import RuleGrammar.Recognizer

/-!
# The chart of a word

The chart of a word is full: one more round adds nothing.  It is also sound, since each of its end
positions comes from a derivation of the letters in between.  Hence a tree is recognized exactly if it
derives the word, whatever cycles, ambiguities and empty words the grammar has.

* `Word.Between`: the letters between two positions of a word.
* `Chart.Fits`: the chart has a place for each nonterminal and position, and ends inside the word.
* `Chart.Sound`: every end position of the chart comes from a derivation.
* `Grammar.grow_chart`: the rounds of the chart suffice.
* `Grammar.mem_ends_iff`: the end positions of a tree are the ends of its derived words.
-/

namespace RuleGrammar

/-! ### Letters between two positions -/

/-- The letters of the word `w` from position `i` to position `j` are `u`. -/
def Word.Between (w : Word) (i : Nat) (u : Word) (j : Nat) : Prop :=
  ∃ before after, w = before ++ u ++ after ∧ before.length = i ∧ i + u.length = j

namespace Word.Between

variable {w u v : Word} {i j k : Nat}

theorem stop_le (h : Between w i u j) : j ≤ w.length := by
  obtain ⟨before, after, rfl, rfl, rfl⟩ := h
  simp

theorem start_le (h : Between w i u j) : i ≤ w.length := by
  obtain ⟨before, after, rfl, rfl, rfl⟩ := h
  simp only [List.length_append]
  omega

theorem nil (h : i ≤ w.length) : Between w i [] i := by
  refine ⟨w.take i, w.drop i, ?_, ?_, rfl⟩
  · rw [List.append_nil, List.take_append_drop]
  · rw [List.length_take]
    omega

theorem nil_iff : Between w i [] j ↔ i ≤ w.length ∧ j = i := by
  constructor
  · intro h
    obtain ⟨before, after, rfl, rfl, rfl⟩ := h
    simp
  · rintro ⟨h, rfl⟩
    exact nil h

theorem singleton_iff {t : Nat} : Between w i [t] j ↔ w[i]? = some t ∧ j = i + 1 := by
  constructor
  · intro h
    obtain ⟨before, after, rfl, rfl, rfl⟩ := h
    simp
  · rintro ⟨h, rfl⟩
    obtain ⟨hlt, rfl⟩ := List.getElem?_eq_some_iff.1 h
    refine ⟨w.take i, w.drop (i + 1), ?_, ?_, rfl⟩
    · rw [List.append_assoc, List.singleton_append, List.getElem_cons_drop, List.take_append_drop]
    · rw [List.length_take]
      omega

theorem whole (w : Word) : Between w 0 w w.length :=
  ⟨[], [], by simp, rfl, by simp⟩

theorem eq_of_whole (h : Between w 0 u w.length) : u = w := by
  obtain ⟨before, after, hw, hbefore, hlen⟩ := h
  have hnil : before = [] := List.length_eq_zero_iff.1 hbefore
  subst hnil
  have hafter : after = [] := by
    have := congrArg List.length hw
    simp only [List.nil_append, List.length_append] at this
    exact List.length_eq_zero_iff.1 (by omega)
  subst hafter
  simpa using hw.symm

theorem append (hu : Between w i u j) (hv : Between w j v k) : Between w i (u ++ v) k := by
  obtain ⟨before, after, hw, rfl, rfl⟩ := hu
  obtain ⟨before', after', hw', hbefore', rfl⟩ := hv
  have hsplit : before ++ u ++ after = before' ++ (v ++ after') := by
    rw [← hw, hw', List.append_assoc]
  obtain ⟨hbefore, hafter⟩ := List.append_inj hsplit (by rw [hbefore', List.length_append])
  refine ⟨before, after', ?_, rfl, ?_⟩
  · rw [hw, hafter]
    simp only [List.append_assoc]
  · rw [List.length_append]
    omega

theorem split (h : Between w i (u ++ v) k) : ∃ j, Between w i u j ∧ Between w j v k := by
  obtain ⟨before, after, hw, rfl, rfl⟩ := h
  refine ⟨before.length + u.length, ⟨before, v ++ after, ?_, rfl, rfl⟩,
    ⟨before ++ u, after, ?_, ?_, ?_⟩⟩
  · rw [hw]
    simp only [List.append_assoc]
  · rw [hw]
    simp only [List.append_assoc]
  · rw [List.length_append]
  · rw [List.length_append]
    omega

end Word.Between

/-! ### Charts and their growth -/

namespace Chart

/-- A chart with a row for each nonterminal and a place for each position of a word, whose end
positions lie inside the word. -/
structure Fits (chart : Chart) (count length : Nat) : Prop where
  rows : chart.size = count
  places : ∀ {nt : Nat} {row : Array NumberSet}, chart[nt]? = some row → row.size = length + 1
  inside : ∀ {nt start stop : Nat}, stop ∈ chart.get nt start → stop ≤ length

variable {g : Grammar} {w : Word} {chart : Chart} {count length : Nat}

theorem get_empty (count length nt start : Nat) :
    (empty count length).get nt start = NumberSet.empty := by
  unfold get empty
  rw [Array.getElem?_replicate]
  split
  · next row hrow =>
      split at hrow
      · cases hrow
        rw [Array.getElem?_replicate]
        split <;> rfl
      · cases hrow
  · rfl

theorem fits_empty (count length : Nat) : (empty count length).Fits count length where
  rows := Array.size_replicate
  places := by
    intro nt row hrow
    rw [empty, Array.getElem?_replicate] at hrow
    split at hrow
    · cases hrow
      exact Array.size_replicate
    · cases hrow
  inside := by
    intro nt start stop hstop
    rw [get_empty] at hstop
    exact absurd hstop (NumberSet.not_mem_empty stop)

/-- A grown chart knows what the chart knew and what the rules give from it. -/
theorem mem_get_grow (hfits : chart.Fits count length) {nt start stop : Nat} :
    stop ∈ (chart.grow g w).get nt start ↔
      stop ∈ chart.get nt start ∨
        (nt < count ∧ start ≤ length ∧ ∃ rule, g.rule? nt = some rule ∧
          stop ∈ chart.ends w rule start) := by
  unfold grow get
  rw [Array.getElem?_mapIdx]
  by_cases hnt : nt < count
  · have hlt : nt < chart.size := by rw [hfits.rows]; exact hnt
    rw [Array.getElem?_eq_getElem hlt, Option.map_some]
    have hrow : chart[nt].size = length + 1 :=
      hfits.places (Array.getElem?_eq_getElem hlt)
    cases hrule : g.rule? nt with
    | none => simp
    | some rule =>
        simp only [Array.getElem?_mapIdx]
        by_cases hstart : start ≤ length
        · have hlt' : start < chart[nt].size := by omega
          rw [Array.getElem?_eq_getElem hlt', Option.map_some, Option.getD_some, Option.getD_some,
            NumberSet.mem_union]
          simp [hnt, hstart]
        · rw [Array.getElem?_eq_none (by omega)]
          simp [hstart]
  · have hnone : chart[nt]? = none := Array.getElem?_eq_none (by rw [hfits.rows]; omega)
    rw [hnone]
    simp [hnt]

/-- Trees that begin inside the word end inside it. -/
theorem ends_le (hfits : chart.Fits count w.length) (t : Rule) :
    ∀ start, start ≤ w.length → ∀ stop, stop ∈ chart.ends w t start → stop ≤ w.length := by
  induction t with
  | terminal t =>
      intro start hstart stop hstop
      unfold ends at hstop
      split at hstop
      · rw [NumberSet.mem_singleton.1 hstop]
        exact hstart
      · split at hstop
        · next hletter =>
            obtain ⟨hlt, _⟩ := List.getElem?_eq_some_iff.1 hletter
            rw [NumberSet.mem_singleton.1 hstop]
            exact hlt
        · exact absurd hstop (NumberSet.not_mem_empty stop)
  | semantic s =>
      intro start hstart stop hstop
      rw [ends] at hstop
      rw [NumberSet.mem_singleton.1 hstop]
      exact hstart
  | reference nt opened =>
      intro start _ stop hstop
      exact hfits.inside hstop
  | seq l r ihl ihr =>
      intro start hstart stop hstop
      rw [ends, NumberSet.mem_unionMap] at hstop
      obtain ⟨middle, hmiddle, hstop⟩ := hstop
      exact ihr middle (ihl start hstart middle hmiddle) stop hstop
  | alt l r ihl ihr =>
      intro start hstart stop hstop
      rw [ends, NumberSet.mem_union] at hstop
      rcases hstop with hstop | hstop
      · exact ihl start hstart stop hstop
      · exact ihr start hstart stop hstop
  | iter l r ihl ihr =>
      intro start hstart stop hstop
      rw [ends] at hstop
      obtain ⟨first, hfirst, hreach⟩ := NumberSet.exists_reaches_of_mem_closure hstop
      clear hstop
      induction hreach with
      | refl => exact ihl start hstart first hfirst
      | tail _ hround ih =>
          obtain ⟨middle, hmiddle, hlast⟩ := NumberSet.mem_unionMap.1 hround
          exact ihl middle (ihr _ ih middle hmiddle) _ hlast

/-- An iteration that has reached a position can go on with one more round. -/
theorem mem_ends_iter_of_round (hfits : chart.Fits count w.length) {l r : Rule}
    {start stop middle last : Nat} (hstart : start ≤ w.length)
    (hstop : stop ∈ chart.ends w (.iter l r) start) (hmiddle : middle ∈ chart.ends w r stop)
    (hlast : last ∈ chart.ends w l middle) : last ∈ chart.ends w (.iter l r) start := by
  rw [ends] at hstop ⊢
  have hfirst : ∀ n, n ∈ chart.ends w l start → n < w.length + 1 := by
    intro n hn
    exact Nat.lt_succ_of_le (ends_le hfits l start hstart n hn)
  have hround : ∀ m n, m < w.length + 1 → n ∈ (chart.ends w r m).unionMap (chart.ends w l) →
      n < w.length + 1 := by
    intro m n hm hn
    obtain ⟨k, hk, hn⟩ := NumberSet.mem_unionMap.1 hn
    have hk' := ends_le hfits r m (Nat.le_of_lt_succ hm) k hk
    exact Nat.lt_succ_of_le (ends_le hfits l k hk' n hn)
  exact NumberSet.closure_closed hfirst hround (Nat.le_refl _) hstop
    (NumberSet.mem_unionMap.2 ⟨middle, hmiddle, hlast⟩)

theorem fits_grow (hfits : chart.Fits count w.length) : (chart.grow g w).Fits count w.length where
  rows := by
    rw [grow, Array.size_mapIdx]
    exact hfits.rows
  places := by
    intro nt row hrow
    rw [grow, Array.getElem?_mapIdx, Option.map_eq_some_iff] at hrow
    obtain ⟨old, hold, rfl⟩ := hrow
    split
    · rw [Array.size_mapIdx]
      exact hfits.places hold
    · exact hfits.places hold
  inside := by
    intro nt start stop hstop
    rcases (mem_get_grow hfits).1 hstop with hstop | ⟨_, hstart, rule, _, hstop⟩
    · exact hfits.inside hstop
    · exact ends_le hfits rule start hstart stop hstop

/-! ### Saturation -/

/-- Charts of the same shape that know the same end positions are equal. -/
theorem eq_of_get_eq {a b : Chart} (ha : a.Fits count length) (hb : b.Fits count length)
    (h : ∀ nt start, nt < count → start ≤ length → a.get nt start = b.get nt start) : a = b := by
  refine Array.ext (by rw [ha.rows, hb.rows]) ?_
  intro nt hnt hnt'
  have hrow := ha.places (Array.getElem?_eq_getElem hnt)
  have hrow' := hb.places (Array.getElem?_eq_getElem hnt')
  refine Array.ext (by rw [hrow, hrow']) ?_
  intro start hstart hstart'
  have hget := h nt start (by rw [← ha.rows]; exact hnt) (by omega)
  unfold get at hget
  rw [Array.getElem?_eq_getElem hnt, Array.getElem?_eq_getElem hnt'] at hget
  simpa [Array.getElem?_eq_getElem hstart, Array.getElem?_eq_getElem hstart'] using hget

def weight (count length : Nat) (chart : Chart) : Nat :=
  ∑ nt ∈ Finset.range count, ∑ start ∈ Finset.range (length + 1), (chart.get nt start).size

theorem weight_le (hfits : chart.Fits count length) :
    chart.weight count length ≤ count * (length + 1) * (length + 1) := by
  have hplace : ∀ nt start, (chart.get nt start).size ≤ length + 1 := by
    intro nt start
    exact NumberSet.size_le_of_lt fun n hn => Nat.lt_succ_of_le (hfits.inside hn)
  have hrow : ∀ nt ∈ Finset.range count,
      ∑ start ∈ Finset.range (length + 1), (chart.get nt start).size
        ≤ (length + 1) * (length + 1) := by
    intro nt _
    calc ∑ start ∈ Finset.range (length + 1), (chart.get nt start).size
        ≤ (Finset.range (length + 1)).card • (length + 1) :=
          Finset.sum_le_card_nsmul _ _ _ fun start _ => hplace nt start
      _ = (length + 1) * (length + 1) := by rw [Finset.card_range, smul_eq_mul]
  calc chart.weight count length
      ≤ (Finset.range count).card • ((length + 1) * (length + 1)) :=
        Finset.sum_le_card_nsmul _ _ _ hrow
    _ = count * (length + 1) * (length + 1) := by
        rw [Finset.card_range, smul_eq_mul, Nat.mul_assoc]

/-- A chart that knows more weighs more. -/
theorem weight_lt_of_get_ne {larger : Chart}
    (hsub : ∀ nt start n, n ∈ chart.get nt start → n ∈ larger.get nt start) {nt start : Nat}
    (hnt : nt < count) (hstart : start ≤ length) (hne : larger.get nt start ≠ chart.get nt start) :
    chart.weight count length < larger.weight count length := by
  have hle : ∀ nt start, (chart.get nt start).size ≤ (larger.get nt start).size :=
    fun nt start => NumberSet.size_le_of_subset (hsub nt start)
  refine Finset.sum_lt_sum (fun nt _ => Finset.sum_le_sum fun start _ => hle nt start)
    ⟨nt, Finset.mem_range.2 hnt, ?_⟩
  refine Finset.sum_lt_sum (fun start _ => hle nt start)
    ⟨start, Finset.mem_range.2 (Nat.lt_succ_of_le hstart), ?_⟩
  exact NumberSet.size_lt_of_subset (hsub nt start) hne

/-- A round that changes the chart adds an end position. -/
theorem weight_lt_grow (hfits : chart.Fits count w.length) (hne : chart.grow g w ≠ chart) :
    chart.weight count w.length < (chart.grow g w).weight count w.length := by
  obtain ⟨nt, start, hnt, hstart, hget⟩ : ∃ nt start, nt < count ∧ start ≤ w.length ∧
      (chart.grow g w).get nt start ≠ chart.get nt start := by
    by_contra hall
    push Not at hall
    exact hne (eq_of_get_eq (fits_grow hfits) hfits hall)
  exact weight_lt_of_get_ne (fun nt start n hn => (mem_get_grow hfits).2 (Or.inl hn)) hnt hstart hget

theorem saturate_succ (g : Grammar) (w : Word) (rounds : Nat) (chart : Chart) :
    saturate g w (rounds + 1) chart
      = if chart.grow g w = chart then chart else saturate g w rounds (chart.grow g w) := rfl

/-! ### Soundness -/

/-- Every end position of a chart comes from a derivation of the letters in between. -/
def Sound (g : Grammar) (w : Word) (chart : Chart) : Prop :=
  ∀ nt start stop, stop ∈ chart.get nt start →
    ∃ u, w.Between start u stop ∧ Derives g (.reference nt false) u

/-- In a sound chart the end positions of any tree come from derivations. -/
theorem exists_derives_of_mem_ends (hsound : chart.Sound g w) (t : Rule) :
    ∀ start, start ≤ w.length → ∀ stop, stop ∈ chart.ends w t start →
      ∃ u, w.Between start u stop ∧ Derives g t u := by
  induction t with
  | terminal t =>
      intro start hstart stop hstop
      unfold ends at hstop
      split at hstop
      · next hzero =>
          subst hzero
          rw [NumberSet.mem_singleton.1 hstop]
          exact ⟨[], Word.Between.nil hstart, Derives.empty⟩
      · next hne =>
          split at hstop
          · next hletter =>
              exact ⟨[t], Word.Between.singleton_iff.2 ⟨hletter, NumberSet.mem_singleton.1 hstop⟩,
                Derives.terminal hne⟩
          · exact absurd hstop (NumberSet.not_mem_empty stop)
  | semantic s =>
      intro start hstart stop hstop
      rw [ends] at hstop
      rw [NumberSet.mem_singleton.1 hstop]
      exact ⟨[], Word.Between.nil hstart, Derives.semantic⟩
  | reference nt opened =>
      intro start _ stop hstop
      obtain ⟨u, hu, hder⟩ := hsound nt start stop hstop
      exact ⟨u, hu, derives_reference_iff.2 (derives_reference_iff.1 hder)⟩
  | seq l r ihl ihr =>
      intro start hstart stop hstop
      rw [ends, NumberSet.mem_unionMap] at hstop
      obtain ⟨middle, hmiddle, hstop⟩ := hstop
      obtain ⟨u, hu, hleft⟩ := ihl start hstart middle hmiddle
      obtain ⟨v, hv, hright⟩ := ihr middle hu.stop_le stop hstop
      exact ⟨u ++ v, hu.append hv, Derives.seq hleft hright⟩
  | alt l r ihl ihr =>
      intro start hstart stop hstop
      rw [ends, NumberSet.mem_union] at hstop
      rcases hstop with hstop | hstop
      · obtain ⟨u, hu, hleft⟩ := ihl start hstart stop hstop
        exact ⟨u, hu, Derives.altLeft hleft⟩
      · obtain ⟨u, hu, hright⟩ := ihr start hstart stop hstop
        exact ⟨u, hu, Derives.altRight hright⟩
  | iter l r ihl ihr =>
      intro start hstart stop hstop
      rw [ends] at hstop
      obtain ⟨first, hfirst, hreach⟩ := NumberSet.exists_reaches_of_mem_closure hstop
      clear hstop
      -- each step of the closure is one round of the iteration
      induction hreach with
      | refl =>
          obtain ⟨u, hu, hleft⟩ := ihl start hstart first hfirst
          exact ⟨u, hu, Derives.iterOnce hleft⟩
      | tail _ hround ih =>
          obtain ⟨u, hu, hiter⟩ := ih
          obtain ⟨middle, hmiddle, hlast⟩ := NumberSet.mem_unionMap.1 hround
          obtain ⟨v, hv, hright⟩ := ihr _ hu.stop_le middle hmiddle
          obtain ⟨x, hx, hleft⟩ := ihl middle hv.stop_le _ hlast
          exact ⟨u ++ v ++ x, (hu.append hv).append hx, Derives.iterMore hiter hright hleft⟩

/-- What a rule gives from a sound chart is derived by its nonterminal. -/
theorem exists_derives_of_rule (hsound : chart.Sound g w) {nt start stop : Nat} {rule : Rule}
    (hnt : nt < g.nonterminals.size) (hrule : g.rule? nt = some rule) (hstart : start ≤ w.length)
    (hstop : stop ∈ chart.ends w rule start) :
    ∃ u, w.Between start u stop ∧ Derives g (.reference nt false) u := by
  obtain ⟨u, hu, hder⟩ := exists_derives_of_mem_ends hsound rule start hstart stop hstop
  exact ⟨u, hu, Derives.reference hnt hrule hder⟩

theorem sound_grow (hfits : chart.Fits g.nonterminals.size w.length) (hsound : chart.Sound g w) :
    (chart.grow g w).Sound g w := by
  intro nt start stop hstop
  rcases (mem_get_grow hfits).1 hstop with hstop | ⟨hnt, hstart, rule, hrule, hstop⟩
  · exact hsound nt start stop hstop
  · exact exists_derives_of_rule hsound hnt hrule hstart hstop

/-! ### Completeness -/

/-- In a full chart every derived word between two positions is found. -/
theorem mem_ends_of_derives (hfits : chart.Fits g.nonterminals.size w.length)
    (hfull : chart.grow g w = chart) {t : Rule} {u : Word} (h : Derives g t u) :
    ∀ start stop, w.Between start u stop → stop ∈ chart.ends w t start := by
  induction h with
  | empty =>
      intro start stop hu
      obtain ⟨_, rfl⟩ := Word.Between.nil_iff.1 hu
      simp [ends]
  | terminal hne =>
      intro start stop hu
      obtain ⟨hletter, rfl⟩ := Word.Between.singleton_iff.1 hu
      simp [ends, hne, hletter]
  | semantic =>
      intro start stop hu
      obtain ⟨_, rfl⟩ := Word.Between.nil_iff.1 hu
      simp [ends]
  | reference hnt hrule _ ih =>
      intro start stop hu
      rw [ends, ← hfull]
      exact (mem_get_grow hfits).2 (Or.inr ⟨hnt, hu.start_le, _, hrule, ih start stop hu⟩)
  | seq _ _ ihl ihr =>
      intro start stop huv
      obtain ⟨middle, hu, hv⟩ := huv.split
      rw [ends, NumberSet.mem_unionMap]
      exact ⟨middle, ihl start middle hu, ihr middle stop hv⟩
  | altLeft _ ih =>
      intro start stop hu
      rw [ends, NumberSet.mem_union]
      exact Or.inl (ih start stop hu)
  | altRight _ ih =>
      intro start stop hu
      rw [ends, NumberSet.mem_union]
      exact Or.inr (ih start stop hu)
  | iterOnce _ ih =>
      intro start stop hu
      rw [ends]
      exact NumberSet.subset_closure (ih start stop hu)
  | iterMore _ _ _ ihi ihr ihl =>
      intro start stop huvx
      obtain ⟨k, huv, hx⟩ := huvx.split
      obtain ⟨j, hu, hv⟩ := huv.split
      exact mem_ends_iter_of_round hfits hu.start_le (ihi start j hu) (ihr j k hv) (ihl k stop hx)

end Chart

/-! ### The chart of a word -/

namespace Grammar

theorem fits_chart (g : Grammar) (w : Word) : (g.chart w).Fits g.nonterminals.size w.length :=
  loop_invariant (fun _ => rfl) (Chart.saturate_succ g w)
    (fun chart => chart.Fits g.nonterminals.size w.length) (fun _ h => Chart.fits_grow h) _ _
    (Chart.fits_empty _ _)

/-- The chart of a word is full. -/
theorem grow_chart (g : Grammar) (w : Word) : (g.chart w).grow g w = g.chart w :=
  stable_of_measure (fun _ => rfl) (Chart.saturate_succ g w)
    (fun chart => chart.Fits g.nonterminals.size w.length) (fun _ h => Chart.fits_grow h)
    (Chart.weight g.nonterminals.size w.length)
    (fun _ h => Chart.weight_le h) (fun _ h hne => Chart.weight_lt_grow h hne) _ _
    (Chart.fits_empty _ _) (by omega)

theorem sound_chart (g : Grammar) (w : Word) : (g.chart w).Sound g w := by
  have h : (g.chart w).Fits g.nonterminals.size w.length ∧ (g.chart w).Sound g w :=
    loop_invariant (fun _ => rfl) (Chart.saturate_succ g w)
      (fun chart => chart.Fits g.nonterminals.size w.length ∧ chart.Sound g w)
      (fun _ h => ⟨Chart.fits_grow h.1, Chart.sound_grow h.1 h.2⟩) _ _
      ⟨Chart.fits_empty _ _, fun nt start stop hstop => by
        rw [Chart.get_empty] at hstop
        exact absurd hstop (NumberSet.not_mem_empty stop)⟩
  exact h.2

/-- The end positions of a tree in the chart of a word are the ends of its derived words. -/
theorem mem_ends_iff (g : Grammar) (w : Word) (t : Rule) {start stop : Nat}
    (hstart : start ≤ w.length) :
    stop ∈ (g.chart w).ends w t start ↔ ∃ u, w.Between start u stop ∧ Derives g t u := by
  constructor
  · exact Chart.exists_derives_of_mem_ends (g.sound_chart w) t start hstart stop
  · rintro ⟨u, hu, hder⟩
    exact Chart.mem_ends_of_derives (g.fits_chart w) (g.grow_chart w) hder start stop hu

theorem recognizes_iff (g : Grammar) (t : Rule) (w : Word) :
    g.recognizes t w = true ↔ Derives g t w := by
  rw [recognizes, NumberSet.contains_iff, mem_ends_iff g w t (Nat.zero_le _)]
  constructor
  · rintro ⟨u, hu, hder⟩
    rwa [← hu.eq_of_whole]
  · intro hder
    exact ⟨w, Word.Between.whole w, hder⟩

theorem accepts_iff (g : Grammar) (nt : Nat) (w : Word) :
    g.accepts nt w = true ↔ g.Language nt w :=
  g.recognizes_iff (.reference nt false) w

end Grammar

end RuleGrammar
