import Mathlib.Data.List.Pairwise
import Mathlib.Tactic.ByContra
import RuleGrammar.Automaton.Path
import RuleGrammar.Proofs.Chains

/-!
# Steps of the reduction keep the path language

Each step that shrinks a graph keeps the words that are read along its paths: merging arcs of the same
ends on any graph, and on a simple graph also taking out a state between the start and the final state
and folding a loop of two states into an iteration.

* `Path.trans`, `Path.of_steps`: paths put together, and paths replaced arc by arc.
* `path_merge_iff`: merging keeps all paths.
* `path_eliminate_iff`: taking out a state keeps the paths between the other states.
* `Foldable`, `foldable_of_loopPartner?`: when a loop of two states can be folded.
* `path_foldLoop_iff`: folding keeps the paths from the other states to all but one.
-/

namespace RuleGrammar.Graph

variable {G : Grammar} {g h : Graph} {s t m : Nat} {u v w : Word}

/-! ### Paths -/

theorem Path.of_arc {arc : Arc} (harc : arc ∈ g.arcs) (hu : Derives G arc.tree u) :
    Path G g arc.source arc.target u := by
  have hpath := Path.step harc hu (Path.stay arc.target)
  rwa [List.append_nil] at hpath

theorem Path.trans (hu : Path G g s m u) (hv : Path G g m t v) : Path G g s t (u ++ v) := by
  induction hu with
  | stay s => exact hv
  | step harc hx _ ih =>
      rw [List.append_assoc]
      exact Path.step harc hx (ih hv)

/-- A path whose arcs are paths of another graph is a path of that graph. -/
theorem Path.of_steps (hsteps : ∀ arc ∈ g.arcs, ∀ u, Derives G arc.tree u →
    Path G h arc.source arc.target u) (hpath : Path G g s t w) : Path G h s t w := by
  induction hpath with
  | stay s => exact Path.stay s
  | step harc hu _ ih => exact (hsteps _ harc _ hu).trans ih

/-! ### Merging -/

/-- An arc of a list with one more arc is old, or the new one, or an old one with an alternative. -/
theorem mem_addArc {arc x : Arc} {arcs : List Arc} (hx : x ∈ addArc arc arcs) :
    x ∈ arcs ∨ x = arc ∨ ∃ y ∈ arcs, y.source = arc.source ∧ y.target = arc.target ∧
      x = { y with tree := .alt y.tree arc.tree } := by
  induction arcs with
  | nil => exact Or.inr (Or.inl (List.mem_singleton.1 hx))
  | cons other arcs ih =>
      rw [addArc] at hx
      split at hx
      · next hends =>
          rcases List.mem_cons.1 hx with rfl | hx
          · exact Or.inr (Or.inr ⟨other, List.mem_cons_self, hends.1, hends.2, rfl⟩)
          · exact Or.inl (List.mem_cons_of_mem _ hx)
      · rcases List.mem_cons.1 hx with rfl | hx
        · exact Or.inl List.mem_cons_self
        · rcases ih hx with hx | hx | ⟨y, hy, hends⟩
          · exact Or.inl (List.mem_cons_of_mem _ hx)
          · exact Or.inr (Or.inl hx)
          · exact Or.inr (Or.inr ⟨y, List.mem_cons_of_mem _ hy, hends⟩)

/-- The words on the arcs from one state to another. -/
def Between (G : Grammar) (arcs : List Arc) (s t : Nat) (u : Word) : Prop :=
  ∃ arc ∈ arcs, arc.source = s ∧ arc.target = t ∧ Derives G arc.tree u

theorem between_cons {arc : Arc} {arcs : List Arc} :
    Between G (arc :: arcs) s t u ↔
      (arc.source = s ∧ arc.target = t ∧ Derives G arc.tree u) ∨ Between G arcs s t u := by
  unfold Between
  simp only [List.mem_cons, exists_eq_or_imp]

theorem between_addArc {arc : Arc} {arcs : List Arc} :
    Between G (addArc arc arcs) s t u ↔ Between G (arc :: arcs) s t u := by
  induction arcs with
  | nil => rfl
  | cons other arcs ih =>
      rw [addArc]
      split
      · next hends =>
          simp only [between_cons, derives_alt_iff, hends.1, hends.2]
          grind
      · rw [between_cons, ih]
        simp only [between_cons]
        grind

theorem between_foldl_addArc (arcs merged : List Arc) :
    Between G (arcs.foldl (fun merged arc => addArc arc merged) merged) s t u ↔
      Between G merged s t u ∨ Between G arcs s t u := by
  induction arcs generalizing merged with
  | nil =>
      rw [List.foldl_nil]
      simp [Between]
  | cons arc arcs ih =>
      rw [List.foldl_cons, ih, between_addArc, between_cons, between_cons]
      grind

theorem between_merge : Between G g.merge.arcs s t u ↔ Between G g.arcs s t u := by
  rw [merge, between_foldl_addArc]
  simp [Between]

/-- Graphs with the same words between any two states have the same paths. -/
theorem Path.of_between (hwords : ∀ s t u, Between G g.arcs s t u → Between G h.arcs s t u)
    (hpath : Path G g s t w) : Path G h s t w := by
  refine hpath.of_steps ?_
  intro arc harc u hu
  obtain ⟨other, hother, hsource, htarget, hder⟩ :=
    hwords arc.source arc.target u ⟨arc, harc, rfl, rfl, hu⟩
  rw [← hsource, ← htarget]
  exact Path.of_arc hother hder

/-- **Merging keeps all paths.** -/
theorem path_merge_iff : Path G g.merge s t w ↔ Path G g s t w :=
  ⟨Path.of_between fun _ _ _ => between_merge.1, Path.of_between fun _ _ _ => between_merge.2⟩

/-! ### Taking out a state -/

theorem mem_arcs_eliminate {state : Nat} {x : Arc} :
    x ∈ (g.eliminate state).arcs ↔
      (x ∈ g.arcs ∧ x.source ≠ state ∧ x.target ≠ state) ∨
        ∃ into ∈ g.arcs, into.target = state ∧ into.source ≠ state ∧
          ∃ out ∈ g.arcs, out.source = state ∧ out.target ≠ state ∧
            x = ⟨into.source, out.target, (into.tree.join (g.loopTree state)).join out.tree⟩ := by
  unfold eliminate
  simp only [List.mem_append, List.mem_filter, List.mem_flatMap, List.mem_map, enters, leaves,
    Bool.and_eq_true, bne_iff_ne, beq_iff_eq, ne_eq, and_assoc]
  constructor
  · rintro (hrest | ⟨into, hinto, htarget, hsource, out, hout, hsource', htarget', rfl⟩)
    · exact Or.inl hrest
    · exact Or.inr ⟨into, hinto, htarget, hsource, out, hout, hsource', htarget', rfl⟩
  · rintro (hrest | ⟨into, hinto, htarget, hsource, out, hout, hsource', htarget', rfl⟩)
    · exact Or.inl hrest
    · exact Or.inr ⟨into, hinto, htarget, hsource, out, hout, hsource', htarget', rfl⟩

/-- What is read while a state is not left is read along a path from the state to itself. -/
theorem path_of_derives_loopTree {state : Nat} (hu : Derives G (g.loopTree state) u) :
    Path G g state state u := by
  unfold loopTree at hu
  split at hu
  · next loop hloop =>
      have hmem := List.mem_of_find?_eq_some hloop
      have hends := List.find?_some hloop
      simp only [loops, Bool.and_eq_true, beq_iff_eq] at hends
      generalize htree : Tree.iter Tree.epsilon loop.tree = tree at hu
      induction hu with
      | iterOnce h _ =>
          cases htree
          rw [derives_epsilon_iff.1 h]
          exact Path.stay state
      | iterMore _ hr hl ih _ _ =>
          cases htree
          rw [derives_epsilon_iff.1 hl, List.append_nil]
          have hround := Path.of_arc hmem hr
          rw [hends.1, hends.2] at hround
          exact (ih rfl).trans hround
      | _ => cases htree
  · rw [derives_epsilon_iff.1 hu]
    exact Path.stay state

theorem nil_derives_loopTree (g : Graph) (state : Nat) : Derives G (g.loopTree state) [] := by
  unfold loopTree
  split
  · exact Derives.iterOnce Derives.empty
  · exact Derives.empty

/-- Arcs of a simple graph with the same ends are the same. -/
theorem Simple.eq_of_ends (hsimple : g.Simple) {a b : Arc} (ha : a ∈ g.arcs) (hb : b ∈ g.arcs)
    (hsource : a.source = b.source) (htarget : a.target = b.target) : a = b := by
  by_contra hne
  have : Std.Symm fun a b : Arc => ¬ (a.source = b.source ∧ a.target = b.target) :=
    ⟨fun a b hab hba => hab ⟨hba.1.symm, hba.2.symm⟩⟩
  exact hsimple.distinct.forall ha hb hne ⟨hsource, htarget⟩

/-- A round of the loop of a state in front of what is read while the state is not left. -/
theorem derives_loopTree_cons (hsimple : g.Simple) {loop : Arc} (hloop : loop ∈ g.arcs)
    (hends : loop.source = loop.target) (hu : Derives G loop.tree u)
    (hv : Derives G (g.loopTree loop.source) v) : Derives G (g.loopTree loop.source) (u ++ v) := by
  unfold loopTree at hv ⊢
  split
  · next other hother =>
      rw [hother] at hv
      have hmem := List.mem_of_find?_eq_some hother
      have hends' := List.find?_some hother
      simp only [loops, Bool.and_eq_true, beq_iff_eq] at hends'
      have heq : loop = other :=
        hsimple.eq_of_ends hloop hmem hends'.1.symm (by rw [← hends, hends'.2])
      subst heq
      exact Derives.iterCons Derives.empty hu hv
  · next hnone =>
      refine absurd ?_ (List.find?_eq_none.1 hnone loop hloop)
      simp [loops, hends]

/-- How a path to another state begins, once a state is taken out: at the state itself, some rounds of
its loop are followed by an arc that leaves it. -/
def Rerouted (G : Grammar) (g : Graph) (state s t : Nat) (w : Word) : Prop :=
  if s = state then
    ∃ u x v out, w = u ++ (x ++ v) ∧ Derives G (g.loopTree state) u ∧ out ∈ g.arcs ∧
      out.source = state ∧ out.target ≠ state ∧ Derives G out.tree x ∧
      Path G (g.eliminate state) out.target t v
  else Path G (g.eliminate state) s t w

theorem rerouted_of_path (hsimple : g.Simple) {state : Nat} (ht : t ≠ state)
    (hpath : Path G g s t w) : Rerouted G g state s t w := by
  induction hpath with
  | stay s =>
      rw [Rerouted, if_neg ht]
      exact Path.stay s
  | @step arc t u v harc hu _ ih =>
      have hrest := ih ht
      unfold Rerouted at hrest ⊢
      -- the arc may loop at the state, enter it, leave it, or not touch it
      by_cases hsource : arc.source = state
      · rw [if_pos hsource]
        by_cases htarget : arc.target = state
        · rw [if_pos htarget] at hrest
          obtain ⟨x, y, z, out, rfl, hx, hout⟩ := hrest
          refine ⟨u ++ x, y, z, out, by rw [List.append_assoc], ?_, hout⟩
          rw [← hsource] at hx ⊢
          exact derives_loopTree_cons hsimple harc (hsource.trans htarget.symm) hu hx
        · rw [if_neg htarget] at hrest
          exact ⟨[], u, v, arc, rfl, nil_derives_loopTree g state, harc, hsource, htarget, hu, hrest⟩
      · rw [if_neg hsource]
        by_cases htarget : arc.target = state
        · rw [if_pos htarget] at hrest
          obtain ⟨x, y, z, out, rfl, hx, hout, hsource', htarget', hy, hz⟩ := hrest
          have hthrough := mem_arcs_eliminate.2
            (Or.inr ⟨arc, harc, htarget, hsource, out, hout, hsource', htarget', rfl⟩)
          have hword : Derives G ((arc.tree.join (g.loopTree state)).join out.tree) (u ++ x ++ y) :=
            derives_join_iff.2 ⟨u ++ x, y, rfl, derives_join_iff.2 ⟨u, x, rfl, hu, hx⟩, hy⟩
          have hstep := Path.step hthrough hword hz
          have hcat : u ++ (x ++ (y ++ z)) = u ++ x ++ y ++ z := by
            simp only [List.append_assoc]
          rw [hcat]
          exact hstep
        · rw [if_neg htarget] at hrest
          exact Path.step (mem_arcs_eliminate.2 (Or.inl ⟨harc, hsource, htarget⟩)) hu hrest

theorem path_of_path_eliminate {state : Nat} (hpath : Path G (g.eliminate state) s t w) :
    Path G g s t w := by
  refine hpath.of_steps ?_
  intro arc harc u hu
  rcases mem_arcs_eliminate.1 harc with
    ⟨harc, _, _⟩ | ⟨into, hinto, htarget, _, out, hout, hsource, _, rfl⟩
  · exact Path.of_arc harc hu
  · obtain ⟨xy, z, rfl, hxy, hz⟩ := derives_join_iff.1 hu
    obtain ⟨x, y, rfl, hx, hy⟩ := derives_join_iff.1 hxy
    have hfirst := Path.of_arc hinto hx
    have hlast := Path.of_arc hout hz
    rw [htarget] at hfirst
    rw [hsource] at hlast
    exact (hfirst.trans (path_of_derives_loopTree hy)).trans hlast

/-- **Taking out a state keeps the paths between the other states.** -/
theorem path_eliminate_iff (hsimple : g.Simple) {state : Nat} (hs : s ≠ state) (ht : t ≠ state) :
    Path G (g.eliminate state) s t w ↔ Path G g s t w := by
  constructor
  · exact path_of_path_eliminate
  · intro hpath
    have hrerouted := rerouted_of_path hsimple ht hpath
    rwa [Rerouted, if_neg hs] at hrerouted

/-! ### Folding a loop of two states -/

/-- The arc `into` from the state `other` to `state` is the only way into `state` and the only way out
of `other`, and the arc `back` leads from `state` to `other`. -/
structure Foldable (g : Graph) (other state : Nat) (into back : Arc) : Prop where
  ne : other ≠ state
  into_mem : into ∈ g.arcs ∧ into.source = other ∧ into.target = state
  back_mem : back ∈ g.arcs ∧ back.source = state ∧ back.target = other
  sole_in : ∀ arc ∈ g.arcs, arc.target = state → arc = into
  sole_out : ∀ arc ∈ g.arcs, arc.source = other → arc = into

theorem not_loops_of_loopSize {state : Nat} (hsize : (g.degree state).loopSize = 0) :
    ∀ arc ∈ g.arcs, arc.target = state → arc.source ≠ state := by
  intro arc harc htarget hsource
  have hmem : arc ∈ g.arcs.filter (loops state) := by
    rw [List.mem_filter]
    exact ⟨harc, by simp [loops, hsource, htarget]⟩
  unfold degree at hsize
  dsimp only at hsize
  split at hsize
  · next last _ =>
      have := last.tree.size_pos
      omega
  · next hnone =>
      rw [List.getLast?_eq_none_iff] at hnone
      rw [hnone] at hmem
      cases hmem

theorem eq_of_inCount_eq_one {state : Nat} (hcount : (g.degree state).inCount = 1) {a b : Arc}
    (ha : a ∈ g.arcs) (hb : b ∈ g.arcs) (hea : enters state a = true) (heb : enters state b = true) :
    a = b := by
  obtain ⟨c, hc⟩ := List.length_eq_one_iff.1 hcount
  have ha' : a ∈ g.arcs.filter (enters state) := List.mem_filter.2 ⟨ha, hea⟩
  have hb' : b ∈ g.arcs.filter (enters state) := List.mem_filter.2 ⟨hb, heb⟩
  rw [hc] at ha' hb'
  rw [List.mem_singleton.1 ha', List.mem_singleton.1 hb']

/-- The partner of a state in a loop of two can be folded with it. -/
theorem foldable_of_loopPartner? {other state : Nat} (hpartner : g.loopPartner? state = some other) :
    ∃ into back, g.Foldable other state into back := by
  unfold loopPartner? at hpartner
  dsimp only at hpartner
  split at hpartner
  · next hdegree =>
      split at hpartner
      · next into hinto =>
          split at hpartner
          · cases hpartner
          · next hsole =>
              split at hpartner
              · next hback =>
                  cases hpartner
                  have hmem := List.mem_of_find?_eq_some hinto
                  have henters := List.find?_some hinto
                  have hends := henters
                  simp only [enters, Bool.and_eq_true, beq_iff_eq, bne_iff_ne] at hends
                  have hsole_in : ∀ arc ∈ g.arcs, arc.target = state → arc = into := by
                    intro arc harc htarget
                    have hsource := not_loops_of_loopSize hdegree.2 arc harc htarget
                    exact eq_of_inCount_eq_one hdegree.1 harc hmem (by simp [enters, htarget, hsource])
                      henters
                  obtain ⟨back, hbackMem, hbackEnds⟩ := List.any_eq_true.1 hback
                  simp only [Bool.and_eq_true, beq_iff_eq] at hbackEnds
                  refine ⟨into, back, hends.2, ⟨hmem, rfl, hends.1⟩, ⟨hbackMem, hbackEnds⟩, hsole_in, ?_⟩
                  intro arc harc hsource
                  refine hsole_in arc harc ?_
                  by_contra htarget
                  exact hsole (List.any_eq_true.2 ⟨arc, harc, by simp [hsource, htarget]⟩)
              · cases hpartner
      · cases hpartner
  · cases hpartner

theorem mem_eraseP_of_pairwise {α : Type} {p : α → Bool} {xs : List α} {x : α}
    (hxs : xs.Pairwise fun a b => ¬ (p a = true ∧ p b = true)) :
    x ∈ xs.eraseP p ↔ x ∈ xs ∧ p x = false := by
  induction xs with
  | nil => simp
  | cons a xs ih =>
      obtain ⟨ha, hxs⟩ := List.pairwise_cons.1 hxs
      rw [List.eraseP_cons]
      cases hpa : p a with
      | true =>
          constructor
          · intro hx
            refine ⟨List.mem_cons_of_mem _ hx, ?_⟩
            by_contra hpx
            exact ha x hx ⟨hpa, by simpa using hpx⟩
          · rintro ⟨hx, hpx⟩
            rcases List.mem_cons.1 hx with rfl | hx
            · rw [hpa] at hpx
              cases hpx
            · exact hx
      | false =>
          rw [cond_false, List.mem_cons, List.mem_cons, ih hxs]
          constructor
          · rintro (rfl | ⟨hx, hpx⟩)
            · exact ⟨Or.inl rfl, hpa⟩
            · exact ⟨Or.inr hx, hpx⟩
          · rintro ⟨rfl | hx, hpx⟩
            · exact Or.inl rfl
            · exact Or.inr ⟨hx, hpx⟩

section Folding

variable {other state : Nat} {into back : Arc}

/-- The arcs of a folded graph: the way back is gone, and the way in has become an iteration. -/
theorem mem_arcs_foldLoop (hsimple : g.Simple) (hfold : g.Foldable other state into back) {x : Arc} :
    x ∈ (g.foldLoop other state).arcs ↔
      (x ∈ g.arcs ∧ x ≠ into ∧ x ≠ back) ∨ x = { into with tree := .iter into.tree back.tree } := by
  obtain ⟨hinto, hintoSource, hintoTarget⟩ := hfold.into_mem
  obtain ⟨hback, hbackSource, hbackTarget⟩ := hfold.back_mem
  have hisBack : ∀ y ∈ g.arcs, (y.source == state && y.target == other) = true ↔ y = back := by
    intro y hy
    rw [Bool.and_eq_true, beq_iff_eq, beq_iff_eq]
    constructor
    · rintro ⟨hsource, htarget⟩
      exact hsimple.eq_of_ends hy hback (by rw [hsource, hbackSource]) (by rw [htarget, hbackTarget])
    · rintro rfl
      exact ⟨hbackSource, hbackTarget⟩
  have hfind : g.arcs.find? (fun arc => arc.source == state && arc.target == other) = some back := by
    cases hf : g.arcs.find? (fun arc => arc.source == state && arc.target == other) with
    | none => exact absurd ((hisBack back hback).2 rfl) (List.find?_eq_none.1 hf back hback)
    | some y =>
        have hends := List.find?_some hf
        rw [(hisBack y (List.mem_of_find?_eq_some hf)).1 hends]
  have hpairwise : g.arcs.Pairwise fun a b =>
      ¬ ((a.source == state && a.target == other) = true ∧
        (b.source == state && b.target == other) = true) := by
    refine hsimple.distinct.imp ?_
    intro a b hab hboth
    simp only [Bool.and_eq_true, beq_iff_eq] at hboth
    exact hab ⟨hboth.1.1.trans hboth.2.1.symm, hboth.1.2.trans hboth.2.2.symm⟩
  have herase : ∀ y, y ∈ g.arcs.eraseP (fun arc => arc.source == state && arc.target == other) ↔
      y ∈ g.arcs ∧ y ≠ back := by
    intro y
    rw [mem_eraseP_of_pairwise hpairwise]
    refine and_congr_right fun hy => ?_
    rw [← Bool.not_eq_true, hisBack y hy]
  have hneBack : into ≠ back := by
    intro heq
    exact hfold.ne (by rw [← hintoSource, heq, hbackSource])
  unfold foldLoop
  rw [hfind]
  simp only [List.mem_map, herase]
  constructor
  · rintro ⟨y, ⟨hy, hyback⟩, rfl⟩
    by_cases hends : y.source = other ∧ y.target = state
    · rw [if_pos hends, hfold.sole_out y hy hends.1]
      exact Or.inr rfl
    · rw [if_neg hends]
      refine Or.inl ⟨hy, ?_, hyback⟩
      rintro rfl
      exact hends ⟨hintoSource, hintoTarget⟩
  · rintro (⟨hx, hxinto, hxback⟩ | rfl)
    · refine ⟨x, ⟨hx, hxback⟩, if_neg ?_⟩
      rintro ⟨hsource, _⟩
      exact hxinto (hfold.sole_out x hx hsource)
    · exact ⟨into, ⟨hinto, hneBack⟩, if_pos ⟨hintoSource, hintoTarget⟩⟩

/-- An iteration of the way in and the way back is read along a path of the graph before folding. -/
theorem path_of_derives_iter (hfold : g.Foldable other state into back)
    (hu : Derives G (.iter into.tree back.tree) u) : Path G g other state u := by
  obtain ⟨hinto, hintoSource, hintoTarget⟩ := hfold.into_mem
  obtain ⟨hback, hbackSource, hbackTarget⟩ := hfold.back_mem
  generalize htree : Tree.iter into.tree back.tree = tree at hu
  induction hu with
  | iterOnce hl _ =>
      cases htree
      have hfirst := Path.of_arc hinto hl
      rwa [hintoSource, hintoTarget] at hfirst
  | iterMore _ hr hl ih _ _ =>
      cases htree
      have hround := Path.of_arc hback hr
      have hlast := Path.of_arc hinto hl
      rw [hbackSource, hbackTarget] at hround
      rw [hintoSource, hintoTarget] at hlast
      exact ((ih rfl).trans hround).trans hlast
  | _ => cases htree

/-- In the folded graph an iteration leads from `other` to `state`. -/
theorem path_foldLoop_cons (hsimple : g.Simple) (hfold : g.Foldable other state into back)
    (hu : Derives G (.iter into.tree back.tree) u) (hv : Path G (g.foldLoop other state) state t v) :
    Path G (g.foldLoop other state) other t (u ++ v) := by
  have hnew := Path.of_arc ((mem_arcs_foldLoop hsimple hfold).2 (Or.inr rfl)) hu
  simp only [hfold.into_mem.2.1, hfold.into_mem.2.2] at hnew
  exact hnew.trans hv

/-- How a path begins, once the loop is folded: from `other` with a whole iteration, and from `state`
with rounds that complete an iteration. -/
def Folded (G : Grammar) (g : Graph) (other state : Nat) (into back : Arc) (s t : Nat) (w : Word) :
    Prop :=
  if s = other then
    ∃ x y, w = x ++ y ∧ Derives G (.iter into.tree back.tree) x ∧
      Path G (g.foldLoop other state) state t y
  else if s = state then
    ∃ x y, w = x ++ y ∧
      (∀ u, Derives G into.tree u → Derives G (.iter into.tree back.tree) (u ++ x)) ∧
      Path G (g.foldLoop other state) state t y
  else Path G (g.foldLoop other state) s t w

theorem folded_of_path (hsimple : g.Simple) (hfold : g.Foldable other state into back)
    (ht : t ≠ other) (hpath : Path G g s t w) : Folded G g other state into back s t w := by
  obtain ⟨hinto, hintoSource, hintoTarget⟩ := hfold.into_mem
  obtain ⟨hback, hbackSource, hbackTarget⟩ := hfold.back_mem
  have hstate : ¬ state = other := fun heq => hfold.ne heq.symm
  induction hpath with
  | stay s =>
      rw [Folded, if_neg ht]
      split
      · next hs =>
          refine ⟨[], [], rfl, fun u hu => ?_, by rw [hs]; exact Path.stay state⟩
          rw [List.append_nil]
          exact Derives.iterOnce hu
      · exact Path.stay s
  | @step arc t u v harc hu _ ih =>
      have hrest := ih ht
      -- the arc is the way in, the way back, or an arc that folding keeps
      by_cases hisInto : arc = into
      · subst hisInto
        rw [Folded, hintoTarget, if_neg hstate, if_pos rfl] at hrest
        obtain ⟨x, y, rfl, hx, hy⟩ := hrest
        rw [Folded, if_pos hintoSource]
        exact ⟨u ++ x, y, by rw [List.append_assoc], hx u hu, hy⟩
      · have hsource : arc.source ≠ other := fun h => hisInto (hfold.sole_out arc harc h)
        by_cases hisBack : arc = back
        · subst hisBack
          rw [Folded, hbackTarget, if_pos rfl] at hrest
          obtain ⟨x, y, rfl, hx, hy⟩ := hrest
          rw [Folded, if_neg hsource, if_pos hbackSource]
          refine ⟨u ++ x, y, by rw [List.append_assoc], fun z hz => ?_, hy⟩
          rw [← List.append_assoc]
          exact Derives.iterCons hz hu hx
        · have hkept : arc ∈ (g.foldLoop other state).arcs :=
            (mem_arcs_foldLoop hsimple hfold).2 (Or.inl ⟨harc, hisInto, hisBack⟩)
          have htarget : arc.target ≠ state := fun h => hisInto (hfold.sole_in arc harc h)
          have hpath' : Path G (g.foldLoop other state) arc.target t v := by
            by_cases hother : arc.target = other
            · rw [Folded, if_pos hother] at hrest
              obtain ⟨x, y, rfl, hx, hy⟩ := hrest
              rw [hother]
              exact path_foldLoop_cons hsimple hfold hx hy
            · rw [Folded, if_neg hother, if_neg htarget] at hrest
              exact hrest
          have hstep := Path.step hkept hu hpath'
          rw [Folded, if_neg hsource]
          split
          · next hs =>
              rw [hs] at hstep
              refine ⟨[], u ++ v, rfl, fun z hz => ?_, hstep⟩
              rw [List.append_nil]
              exact Derives.iterOnce hz
          · exact hstep

/-- **Folding keeps the paths** from all states but the one that loses its way back, to all states but
its partner. -/
theorem path_foldLoop_iff (hsimple : g.Simple) (hfold : g.Foldable other state into back)
    (hs : s ≠ state) (ht : t ≠ other) : Path G (g.foldLoop other state) s t w ↔ Path G g s t w := by
  constructor
  · intro hpath
    refine hpath.of_steps ?_
    intro arc harc u hu
    rcases (mem_arcs_foldLoop hsimple hfold).1 harc with ⟨harc, _, _⟩ | rfl
    · exact Path.of_arc harc hu
    · show Path G g into.source into.target u
      rw [hfold.into_mem.2.1, hfold.into_mem.2.2]
      exact path_of_derives_iter hfold hu
  · intro hpath
    have hfolded := folded_of_path hsimple hfold ht hpath
    unfold Folded at hfolded
    rw [if_neg hs] at hfolded
    split at hfolded
    · next hother =>
        obtain ⟨x, y, rfl, hx, hy⟩ := hfolded
        rw [hother]
        exact path_foldLoop_cons hsimple hfold hx hy
    · exact hfolded

end Folding

end RuleGrammar.Graph
