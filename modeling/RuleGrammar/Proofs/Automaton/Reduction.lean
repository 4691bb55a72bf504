import RuleGrammar.Proofs.Automaton.PathLanguage

/-!
# Reduction keeps the path language

The reduction of a graph merges and moves until no state is left between the start and the final
state.  Every move is one of the steps that keep the path language, so at the end the tree on the one
arc that is left derives exactly the words of the first graph.

* `Proper`: arcs join states of the graph, none leaves the final state and none enters the start.
* `Composable`: a property of trees that is kept when trees are put together; `forall_trees_merge`,
  `forall_trees_apply`.
* `Live`: the tree of every arc derives some word.
* `Allowed`: the moves that a reduction makes.
* `reduce_of_none`, `reduce_of_some`: the end of a reduction, and one move of it.
* `reduce_invariant`: what merging and moving keep, the reduction keeps.
* `spanningTree_of_forall_trees`: a composable property of all trees holds of the tree that is left.
* `spanningTree_of_ends`, `spanningTree_reduce`: the words of the tree that is left.
-/

namespace RuleGrammar.Graph

variable {G : Grammar} {g : Graph} {w : Word}

/-! ### Proper graphs -/

/-- Arcs join states of the graph, none leaves the final state and none enters the start. -/
structure Proper (g : Graph) : Prop where
  source_mem : ∀ arc ∈ g.arcs, arc.source ∈ g.states
  target_mem : ∀ arc ∈ g.arcs, arc.target ∈ g.states
  closed : ∀ arc ∈ g.arcs, arc.source ≠ final
  unentered : ∀ arc ∈ g.arcs, arc.target ≠ start

/-- The tree of every arc derives some word. -/
def Live (G : Grammar) (g : Graph) : Prop := ∀ arc ∈ g.arcs, ∃ u, Derives G arc.tree u

/-- What holds of all arcs and of alternatives of them holds after merging. -/
theorem forall_arcs_merge {P : Arc → Prop} (hmerge : ∀ a b : Arc, P a → P b →
    a.source = b.source → a.target = b.target → P { a with tree := .alt a.tree b.tree })
    (hall : ∀ arc ∈ g.arcs, P arc) : ∀ arc ∈ g.merge.arcs, P arc := by
  have hfold : ∀ arcs merged : List Arc, (∀ arc ∈ arcs, P arc) → (∀ arc ∈ merged, P arc) →
      ∀ arc ∈ arcs.foldl (fun merged arc => addArc arc merged) merged, P arc := by
    intro arcs
    induction arcs with
    | nil => exact fun _ _ hmerged => hmerged
    | cons a arcs ih =>
        intro merged harcs hmerged
        obtain ⟨ha, harcs⟩ := List.forall_mem_cons.1 harcs
        refine ih _ harcs ?_
        intro arc harc
        rcases mem_addArc harc with harc | rfl | ⟨b, hb, hsource, htarget, rfl⟩
        · exact hmerged arc harc
        · exact ha
        · exact hmerge b a (hmerged b hb) ha hsource htarget
  exact hfold g.arcs [] hall (by simp)

theorem proper_merge (hg : g.Proper) : g.merge.Proper where
  source_mem := forall_arcs_merge (fun _ _ ha _ _ _ => ha) hg.source_mem
  target_mem := forall_arcs_merge (fun _ _ ha _ _ _ => ha) hg.target_mem
  closed := forall_arcs_merge (fun _ _ ha _ _ _ => ha) hg.closed
  unentered := forall_arcs_merge (fun _ _ ha _ _ _ => ha) hg.unentered

theorem pairwise_addArc {arc : Arc} {arcs : List Arc}
    (harcs : arcs.Pairwise fun a b => ¬ (a.source = b.source ∧ a.target = b.target)) :
    (addArc arc arcs).Pairwise fun a b => ¬ (a.source = b.source ∧ a.target = b.target) := by
  induction arcs with
  | nil => exact List.pairwise_singleton _ _
  | cons other arcs ih =>
      obtain ⟨hother, harcs⟩ := List.pairwise_cons.1 harcs
      rw [addArc]
      split
      · exact List.pairwise_cons.2 ⟨hother, harcs⟩
      · next hends =>
          refine List.pairwise_cons.2 ⟨?_, ih harcs⟩
          intro x hx
          rcases mem_addArc hx with hx | rfl | ⟨y, hy, _, _, rfl⟩
          · exact hother x hx
          · exact hends
          · exact hother y hy

/-- A merged graph whose final state is not left is simple. -/
theorem simple_merge (hclosed : ∀ arc ∈ g.arcs, arc.source ≠ final) : g.merge.Simple where
  distinct := by
    have hfold : ∀ arcs merged : List Arc,
        (merged.Pairwise fun a b => ¬ (a.source = b.source ∧ a.target = b.target)) →
        (arcs.foldl (fun merged arc => addArc arc merged) merged).Pairwise
          fun a b => ¬ (a.source = b.source ∧ a.target = b.target) := by
      intro arcs
      induction arcs with
      | nil => exact fun _ hmerged => hmerged
      | cons arc arcs ih => exact fun merged hmerged => ih _ (pairwise_addArc hmerged)
    exact hfold g.arcs [] List.Pairwise.nil
  closed := forall_arcs_merge (fun _ _ ha _ _ _ => ha) hclosed

theorem proper_eliminate (hg : g.Proper) (state : Nat) : (g.eliminate state).Proper := by
  have hmem : ∀ s, s ∈ (g.eliminate state).states ↔ s ∈ g.states ∧ s ≠ state := by
    intro s
    show s ∈ g.states.filter (· != state) ↔ _
    rw [List.mem_filter, bne_iff_ne]
  refine ⟨?_, ?_, ?_, ?_⟩ <;> intro arc harc <;> rcases mem_arcs_eliminate.1 harc with
    ⟨harc, hsource, htarget⟩ | ⟨into, hinto, _, hsource, out, hout, _, htarget, rfl⟩
  · exact (hmem _).2 ⟨hg.source_mem arc harc, hsource⟩
  · exact (hmem _).2 ⟨hg.source_mem into hinto, hsource⟩
  · exact (hmem _).2 ⟨hg.target_mem arc harc, htarget⟩
  · exact (hmem _).2 ⟨hg.target_mem out hout, htarget⟩
  · exact hg.closed arc harc
  · exact hg.closed into hinto
  · exact hg.unentered arc harc
  · exact hg.unentered out hout

section Folding

variable {other state : Nat} {into back : Arc}

theorem proper_foldLoop (hg : g.Proper) (hsimple : g.Simple)
    (hfold : g.Foldable other state into back) : (g.foldLoop other state).Proper := by
  have hinto := hfold.into_mem.1
  have hmem := fun arc => mem_arcs_foldLoop (x := arc) hsimple hfold
  refine ⟨?_, ?_, ?_, ?_⟩ <;> intro arc harc <;> rcases (hmem arc).1 harc with ⟨harc, _, _⟩ | rfl
  · rw [states_foldLoop]; exact hg.source_mem arc harc
  · rw [states_foldLoop]; exact hg.source_mem into hinto
  · rw [states_foldLoop]; exact hg.target_mem arc harc
  · rw [states_foldLoop]; exact hg.target_mem into hinto
  · exact hg.closed arc harc
  · exact hg.closed into hinto
  · exact hg.unentered arc harc
  · exact hg.unentered into hinto

end Folding

/-! ### Moves -/

/-- The moves that a reduction makes: a state between the start and the final state is taken out, or
folded with its partner. -/
def Allowed (g : Graph) : Move → Prop
  | .trivial state => state ≠ start ∧ state ≠ final
  | .cheapest state _ => state ≠ start ∧ state ≠ final
  | .fold other state => (state ≠ start ∧ state ≠ final) ∧ g.loopPartner? state = some other

theorem allowed_of_moveAmong {states : List Nat} {best : Option (Nat × Nat)} {m : Move}
    (hstates : ∀ s ∈ states, s ≠ start ∧ s ≠ final)
    (hbest : ∀ p, best = some p → p.1 ≠ start ∧ p.1 ≠ final) (h : g.moveAmong states best = some m) :
    g.Allowed m := by
  induction states generalizing best with
  | nil =>
      rw [moveAmong, Option.map_eq_some_iff] at h
      obtain ⟨p, hp, rfl⟩ := h
      exact hbest p hp
  | cons state states ih =>
      obtain ⟨hstate, hstates⟩ := List.forall_mem_cons.1 hstates
      simp only [moveAmong] at h
      split at h
      · cases h
        exact hstate
      · split at h
        · next other hother =>
            cases h
            exact ⟨hstate, hother⟩
        · refine ih hstates (fun p hp => ?_) h
          split at hp
          · split at hp
            · cases hp
              exact hstate
            · cases hp
              exact hbest _ rfl
          · cases hp
            exact hstate

theorem mem_candidates_iff {state : Nat} :
    state ∈ g.candidates ↔ state ∈ g.states ∧ state ≠ start ∧ state ≠ final := by
  rw [candidates, List.mem_mergeSort, List.mem_filter, Bool.and_eq_true, bne_iff_ne, bne_iff_ne]

theorem allowed_of_nextMove? {m : Move} (h : g.nextMove? = some m) : g.Allowed m :=
  allowed_of_moveAmong (fun _ hs => (mem_candidates_iff.1 hs).2) (fun _ hp => by cases hp) h

theorem moveAmong_ne_none {best : Nat × Nat} (states : List Nat) :
    g.moveAmong states (some best) ≠ none := by
  induction states generalizing best with
  | nil => exact Option.some_ne_none _
  | cons state states ih =>
      simp only [moveAmong]
      split
      · exact Option.some_ne_none _
      · split
        · exact Option.some_ne_none _
        · split
          · exact ih
          · exact ih

/-- Without a next move no state is left between the start and the final state. -/
theorem eq_start_or_final_of_nextMove? (h : g.nextMove? = none) {state : Nat}
    (hstate : state ∈ g.states) : state = start ∨ state = final := by
  by_contra hne
  push Not at hne
  have hmem : state ∈ g.candidates := mem_candidates_iff.2 ⟨hstate, hne⟩
  rw [nextMove?] at h
  cases hcandidates : g.candidates with
  | nil =>
      rw [hcandidates] at hmem
      cases hmem
  | cons first rest =>
      simp only [hcandidates, moveAmong] at h
      split at h
      · cases h
      · split at h
        · cases h
        · exact moveAmong_ne_none rest h

/-- A state that can be folded with its partner is not entered from the final state. -/
theorem Foldable.ne_final {other state : Nat} {into back : Arc}
    (hfold : g.Foldable other state into back) (hclosed : ∀ arc ∈ g.arcs, arc.source ≠ final) :
    final ≠ other := by
  intro heq
  exact hclosed into hfold.into_mem.1 (hfold.into_mem.2.1.trans heq.symm)

/-- **A move keeps the words** that are read from the start to the final state. -/
theorem reads_apply_iff (hsimple : g.Simple) {m : Move} (hm : g.Allowed m) :
    Reads G (g.apply m) w ↔ Reads G g w := by
  cases m with
  | trivial state => exact path_eliminate_iff hsimple hm.1.symm hm.2.symm
  | cheapest state cost => exact path_eliminate_iff hsimple hm.1.symm hm.2.symm
  | fold other state =>
      obtain ⟨into, back, hfold⟩ := foldable_of_loopPartner? hm.2
      exact path_foldLoop_iff hsimple hfold hm.1.1.symm (hfold.ne_final hsimple.closed)

theorem proper_apply (hg : g.Proper) (hsimple : g.Simple) {m : Move} (hm : g.Allowed m) :
    (g.apply m).Proper := by
  cases m with
  | trivial state => exact proper_eliminate hg state
  | cheapest state cost => exact proper_eliminate hg state
  | fold other state =>
      obtain ⟨into, back, hfold⟩ := foldable_of_loopPartner? hm.2
      exact proper_foldLoop hg hsimple hfold

/-! ### Trees on arcs -/

/-- A property of trees that holds of the empty word and is kept when trees are put together. -/
structure Composable (P : Rule → Prop) : Prop where
  empty : P Tree.epsilon
  join : ∀ {l r : Rule}, P l → P r → P (l.join r)
  alt : ∀ {l r : Rule}, P l → P r → P (.alt l r)
  iter : ∀ {l r : Rule}, P l → P r → P (.iter l r)

theorem composable_derives (G : Grammar) : Composable fun t => ∃ u, Derives G t u where
  empty := ⟨[], Derives.empty⟩
  join hl hr := by
    obtain ⟨u, hu⟩ := hl
    obtain ⟨v, hv⟩ := hr
    exact ⟨u ++ v, derives_join_iff.2 ⟨u, v, rfl, hu, hv⟩⟩
  alt hl _ := by
    obtain ⟨u, hu⟩ := hl
    exact ⟨u, Derives.altLeft hu⟩
  iter hl _ := by
    obtain ⟨u, hu⟩ := hl
    exact ⟨u, Derives.iterOnce hu⟩

section Trees

variable {P : Rule → Prop} (hP : Composable P)

include hP

theorem forall_trees_merge (hall : ∀ arc ∈ g.arcs, P arc.tree) : ∀ arc ∈ g.merge.arcs, P arc.tree :=
  forall_arcs_merge (fun _ _ ha hb _ _ => hP.alt ha hb) hall

theorem of_loopTree (hall : ∀ arc ∈ g.arcs, P arc.tree) (state : Nat) : P (g.loopTree state) := by
  unfold loopTree
  split
  · next arc harc => exact hP.iter hP.empty (hall arc (List.mem_of_find?_eq_some harc))
  · exact hP.empty

theorem forall_trees_eliminate (hall : ∀ arc ∈ g.arcs, P arc.tree) (state : Nat) :
    ∀ arc ∈ (g.eliminate state).arcs, P arc.tree := by
  intro arc harc
  rcases mem_arcs_eliminate.1 harc with
    ⟨harc, _, _⟩ | ⟨into, hinto, _, _, out, hout, _, _, rfl⟩
  · exact hall arc harc
  · exact hP.join (hP.join (hall into hinto) (of_loopTree hP hall state)) (hall out hout)

theorem forall_trees_foldLoop (hall : ∀ arc ∈ g.arcs, P arc.tree) (other state : Nat) :
    ∀ arc ∈ (g.foldLoop other state).arcs, P arc.tree := by
  unfold foldLoop
  split
  · next back hback =>
      intro arc harc
      obtain ⟨old, hold, rfl⟩ := List.mem_map.1 harc
      have hmem := List.mem_of_mem_eraseP hold
      split
      · exact hP.iter (hall old hmem) (hall back (List.mem_of_find?_eq_some hback))
      · exact hall old hmem
  · exact hall

/-- What holds of all trees holds of them after a move. -/
theorem forall_trees_apply (hall : ∀ arc ∈ g.arcs, P arc.tree) (m : Move) :
    ∀ arc ∈ (g.apply m).arcs, P arc.tree := by
  cases m with
  | trivial state => exact forall_trees_eliminate hP hall state
  | cheapest state cost => exact forall_trees_eliminate hP hall state
  | fold other state => exact forall_trees_foldLoop hP hall other state

end Trees

/-! ### Whole reductions -/

theorem reduce_of_none (hnone : g.merge.nextMove? = none) : g.reduce.1 = g.merge := by
  rw [reduce]
  split
  · rfl
  · next hsome => rw [hnone] at hsome; cases hsome

theorem reduce_of_some {m : Move} (hsome : g.merge.nextMove? = some m) :
    g.reduce.1 = (g.merge.apply m).reduce.1 := by
  rw [reduce]
  split
  · next hnone => rw [hsome] at hnone; cases hnone
  · next m' hsome' =>
      rw [hsome] at hsome'
      cases hsome'
      rfl

/-- What merging with a move keeps, holds of the graph from which a reduction merges for the last
time; no move is left then. -/
theorem reduce_invariant (Inv : Graph → Prop)
    (hmove : ∀ g m, Inv g → g.merge.nextMove? = some m → Inv (g.merge.apply m)) :
    ∀ g, Inv g → ∃ last, Inv last ∧ g.reduce.1 = last.merge ∧ last.merge.nextMove? = none := by
  intro g
  induction g using reduce.induct with
  | case1 g hnone =>
      intro hg
      exact ⟨g, hg, reduce_of_none hnone, hnone⟩
  | case2 g move hsome _ _ _ _ ih =>
      intro hg
      obtain ⟨last, hlast, heq, hnone⟩ := ih (hmove g move hg hsome)
      exact ⟨last, hlast, (reduce_of_some hsome).trans heq, hnone⟩

/-- **What holds of all trees of a graph holds of the tree that its reduction leaves**, if it is kept
when trees are put together. -/
theorem spanningTree_of_forall_trees {P : Rule → Prop} (hP : Composable P)
    (hall : ∀ arc ∈ g.arcs, P arc.tree) : P g.reduce.1.spanningTree := by
  obtain ⟨last, hlast, heq, _⟩ := reduce_invariant (fun g => ∀ arc ∈ g.arcs, P arc.tree)
    (fun g m hg _ => forall_trees_apply hP (forall_trees_merge hP hg) m) g hall
  rw [heq]
  unfold spanningTree
  split
  · next arc harc => exact forall_trees_merge hP hlast arc (List.mem_of_find?_eq_some harc)
  · exact hP.empty

/-- A graph that is reduced but for merging has no arcs but those from the start to the final state. -/
theorem ends_of_nextMove? (hg : g.Proper) (hnone : g.merge.nextMove? = none) {arc : Arc}
    (harc : arc ∈ g.arcs) : arc.source = start ∧ arc.target = final := by
  constructor
  · rcases eq_start_or_final_of_nextMove? hnone (hg.source_mem arc harc) with h | h
    · exact h
    · exact absurd h (hg.closed arc harc)
  · rcases eq_start_or_final_of_nextMove? hnone (hg.target_mem arc harc) with h | h
    · exact absurd h (hg.unentered arc harc)
    · exact h

/-- A path that begins at the final state stays there. -/
theorem eq_nil_of_path_final (hclosed : ∀ arc ∈ g.arcs, arc.source ≠ final) {t : Nat}
    (h : Path G g final t w) : t = final ∧ w = [] := by
  generalize hs : final = s at h
  cases h with
  | stay _ => exact ⟨rfl, rfl⟩
  | step harc _ _ => exact absurd hs.symm (hclosed _ harc)

theorem reads_iff_of_ends (hclosed : ∀ arc ∈ g.arcs, arc.source ≠ final)
    (hends : ∀ arc ∈ g.arcs, arc.source = start ∧ arc.target = final) :
    Reads G g w ↔ ∃ arc ∈ g.arcs, Derives G arc.tree w := by
  constructor
  · intro h
    unfold Reads at h
    generalize hs : start = s at h
    generalize ht : final = t at h
    cases h with
    | stay _ => rw [← ht] at hs; cases hs
    | @step arc t u v harc hu hv =>
        rw [(hends arc harc).2] at hv
        rw [(eq_nil_of_path_final hclosed hv).2, List.append_nil]
        exact ⟨arc, harc, hu⟩
  · rintro ⟨arc, harc, hu⟩
    have hpath := Path.of_arc harc hu
    rwa [(hends arc harc).1, (hends arc harc).2] at hpath

/-- If all arcs lead from the start to the final state, then the words of a graph are those of the tree
on the one arc that merging leaves, if some word can be read when all trees are taken for live; otherwise
no arc is left. -/
theorem spanningTree_of_ends {K : Grammar}
    (hends : ∀ arc ∈ g.arcs, arc.source = start ∧ arc.target = final) (hlive : g.Live K) :
    ((∃ u, Reads K g u) → ∀ G w, Derives G g.merge.spanningTree w ↔ Reads G g w) ∧
      ((¬ ∃ u, Reads K g u) → g.merge.spanningTree = Tree.epsilon) := by
  have hclosed : ∀ arc ∈ g.arcs, arc.source ≠ final := by
    intro arc harc
    rw [(hends arc harc).1]
    exact Nat.zero_ne_one
  have hsimple := simple_merge hclosed
  have hends : ∀ arc ∈ g.merge.arcs, arc.source = start ∧ arc.target = final :=
    forall_arcs_merge (fun _ _ ha _ _ _ => ha) hends
  have hwords : ∀ G w, Reads G g w ↔ ∃ arc ∈ g.merge.arcs, Derives G arc.tree w := by
    intro G w
    rw [← reads_iff_of_ends hsimple.closed hends]
    exact path_merge_iff.symm
  rw [spanningTree]
  split
  · next arc harc =>
      have hmem := List.mem_of_find?_eq_some harc
      constructor
      · intro _ G w
        rw [hwords G w]
        constructor
        · exact fun hw => ⟨arc, hmem, hw⟩
        · rintro ⟨other, hother, hw⟩
          have hsame : other = arc := hsimple.eq_of_ends hother hmem
            ((hends other hother).1.trans (hends arc hmem).1.symm)
            ((hends other hother).2.trans (hends arc hmem).2.symm)
          rw [← hsame]
          exact hw
      · intro hempty
        obtain ⟨u, hu⟩ := forall_trees_merge (composable_derives K) hlive arc hmem
        exact absurd ⟨u, (hwords K u).2 ⟨arc, hmem, hu⟩⟩ hempty
  · next hfind =>
      constructor
      · rintro ⟨u, hu⟩
        obtain ⟨arc, harc, _⟩ := (hwords K u).1 hu
        have hnot := List.find?_eq_none.1 hfind arc harc
        simp [hends arc harc] at hnot
      · exact fun _ => rfl

/-- The words of a graph are those of the tree that its reduction leaves, if some word can be read when
all trees are taken for live; otherwise the reduction leaves the empty word. -/
theorem spanningTree_reduce {K : Grammar} (hg : g.Proper) (hlive : g.Live K) :
    ((∃ u, Reads K g u) → ∀ G w, Derives G g.reduce.1.spanningTree w ↔ Reads G g w) ∧
      ((¬ ∃ u, Reads K g u) → g.reduce.1.spanningTree = Tree.epsilon) := by
  have hmove : ∀ h m, (h.Proper ∧ h.Live K ∧ ∀ G w, Reads G h w ↔ Reads G g w) →
      h.merge.nextMove? = some m → ((h.merge.apply m).Proper ∧ (h.merge.apply m).Live K ∧
        ∀ G w, Reads G (h.merge.apply m) w ↔ Reads G g w) := by
    rintro h m ⟨hproper, hlive, hreads⟩ hm
    have hsimple := simple_merge hproper.closed
    have hallowed := allowed_of_nextMove? hm
    refine ⟨proper_apply (proper_merge hproper) hsimple hallowed,
      forall_trees_apply (composable_derives K) (forall_trees_merge (composable_derives K) hlive) m,
      fun G w => ?_⟩
    rw [reads_apply_iff hsimple hallowed, ← hreads G w]
    exact path_merge_iff
  obtain ⟨last, ⟨hproper, hlive, hreads⟩, heq, hnone⟩ :=
    reduce_invariant _ hmove g ⟨hg, hlive, fun _ _ => Iff.rfl⟩
  have hspanning := spanningTree_of_ends (fun arc harc => ends_of_nextMove? hproper hnone harc) hlive
  simp only [hreads] at hspanning
  rw [heq]
  exact hspanning

end RuleGrammar.Graph
