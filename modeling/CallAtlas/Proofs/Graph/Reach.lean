import CallAtlas.Graph.Reach
import Mathlib.Logic.Relation
import Mathlib.Tactic.Common

/-!
# The search reaches what can be reached

`mem_reachable`: the search finds exactly the least set that holds the roots and is closed under
successors, both within the vertices. The search keeps two facts: what it has visited can be
reached, and a successor of a visited vertex is visited or still to visit.

`Step` is a step of a search that takes what is still to visit in any order. Such searches end,
`wellFounded_step`, and all of them find the same, `mem_visited`.
-/

namespace CallAtlas.Graph

open List

variable {α : Type} [DecidableEq α] {vertices : List α} {next : α → List α}
  {roots work visited : List α} {v : α}

/-- The least set that holds the roots and is closed under successors. -/
inductive Reached (vertices : List α) (next : α → List α) (roots : List α) : α → Prop
  | root {v : α} (hr : v ∈ roots) (hv : v ∈ vertices) : Reached vertices next roots v
  | step {u v : α} (hu : Reached vertices next roots u) (hn : v ∈ next u) (hv : v ∈ vertices) :
      Reached vertices next roots v

theorem subset_reach : visited ⊆ reach vertices next work visited := by
  fun_induction reach vertices next work visited with
  | case1 => exact fun _ => id
  | case2 visited v rest h ih => exact fun x hx => ih (mem_cons_of_mem v hx)
  | case3 visited v rest h ih => exact ih

theorem reached_of_mem_reach (hwork : ∀ w ∈ work, w ∈ vertices → Reached vertices next roots w)
    (hvisited : ∀ w ∈ visited, Reached vertices next roots w) :
    ∀ w ∈ reach vertices next work visited, Reached vertices next roots w := by
  fun_induction reach vertices next work visited with
  | case1 visited => exact hvisited
  | case2 visited v rest h ih =>
    obtain ⟨hv, hrest⟩ := forall_mem_cons.1 hwork
    refine ih ?_ (forall_mem_cons.2 ⟨hv h.1, hvisited⟩)
    intro w hw hwv
    rcases mem_append.1 hw with hw | hw
    · exact .step (hv h.1) hw hwv
    · exact hrest w hw hwv
  | case3 visited v rest h ih => exact ih (forall_mem_cons.1 hwork).2 hvisited

theorem mem_reach_of_mem_work (hv : v ∈ vertices) (hw : v ∈ work) :
    v ∈ reach vertices next work visited := by
  fun_induction reach vertices next work visited with
  | case1 => cases hw
  | case2 visited u rest h ih =>
    rcases mem_cons.1 hw with rfl | hw
    · exact subset_reach (mem_cons_self ..)
    · exact ih (mem_append_right _ hw)
  | case3 visited u rest h ih =>
    rcases mem_cons.1 hw with rfl | hw
    · refine subset_reach ?_
      by_contra hn
      exact h ⟨hv, hn⟩
    · exact ih hw

theorem reach_closed (hinv : ∀ u ∈ visited, ∀ w ∈ next u, w ∈ vertices → w ∈ visited ∨ w ∈ work) :
    ∀ u ∈ reach vertices next work visited, ∀ w ∈ next u, w ∈ vertices →
    w ∈ reach vertices next work visited := by
  fun_induction reach vertices next work visited with
  | case1 visited => exact fun u hu w hw hwv => (hinv u hu w hw hwv).resolve_right (by simp)
  | case2 visited v rest h ih =>
    refine ih ?_
    intro u hu w hw hwv
    rcases mem_cons.1 hu with rfl | hu
    · exact .inr (mem_append_left _ hw)
    · rcases hinv u hu w hw hwv with hw | hw
      · exact .inl (mem_cons_of_mem _ hw)
      · rcases mem_cons.1 hw with rfl | hw
        · exact .inl (mem_cons_self ..)
        · exact .inr (mem_append_right _ hw)
  | case3 visited v rest h ih =>
    refine ih ?_
    intro u hu w hw hwv
    rcases hinv u hu w hw hwv with hw | hw
    · exact .inl hw
    · rcases mem_cons.1 hw with rfl | hw
      · refine .inl ?_
        by_contra hn
        exact h ⟨hwv, hn⟩
      · exact .inr hw

theorem mem_reachable : v ∈ reachable vertices next roots ↔ Reached vertices next roots v := by
  constructor
  · exact reached_of_mem_reach (fun w hw hv => .root hw hv) (by simp) v
  · intro h
    induction h with
    | root hr hv => exact mem_reach_of_mem_work hv hr
    | step _ hn hv ih => exact reach_closed (by simp) _ ih _ hn hv

/-! ## Searches in any order -/

/-- A step of a search: of the vertices still to visit one is taken. If it is new it is visited, and
its successors that are not visited yet are to be visited too, in any order. -/
inductive Step (vertices : List α) (next : α → List α) : List α × List α → List α × List α → Prop
  | skip {v : α} {work rest visited : List α} (hw : work.Perm (v :: rest)) (hv : v ∈ visited) :
      Step vertices next (work, visited) (rest, visited)
  | visit {v : α} {work rest more visited : List α} (hw : work.Perm (v :: rest)) (hv : v ∈ vertices)
      (hn : v ∉ visited) (hm : ∀ w, w ∈ more ↔ w ∈ next v ∧ w ∈ vertices ∧ w ∉ v :: visited) :
      Step vertices next (work, visited) (more ++ rest, v :: visited)

theorem wellFounded_step : WellFounded fun t s => Step vertices next s t := by
  refine Subrelation.wf ?_
    (InvImage.wf (fun s : List α × List α => (unvisited vertices s.2, s.1.length))
    (Prod.lex Nat.lt_wfRel Nat.lt_wfRel).wf)
  intro t s h
  cases h with
  | skip hw hv =>
    refine Prod.Lex.right _ ?_
    rw [hw.length_eq]
    exact Nat.lt_succ_self _
  | visit hw hv hn hm => exact Prod.Lex.left _ _ (unvisited_cons_lt hv hn)

/-- What a search keeps: it comes to what can be reached, and it loses neither a root nor a
successor. -/
structure Searching (vertices : List α) (next : α → List α) (roots : List α) (s : List α × List α) :
    Prop where
  sound : ∀ w, w ∈ s.1 ∨ w ∈ s.2 → Reached vertices next roots w
  roots : ∀ w ∈ roots, w ∈ vertices → w ∈ s.1 ∨ w ∈ s.2
  next : ∀ u ∈ s.2, ∀ w ∈ next u, w ∈ vertices → w ∈ s.1 ∨ w ∈ s.2

theorem Searching.step {s t : List α × List α} (hs : Searching vertices next roots s)
    (h : Step vertices next s t) :
    Searching vertices next roots t := by
  cases h with
  | @skip v work rest visited hw hv =>
    have hkept : ∀ w, w ∈ work ∨ w ∈ visited → w ∈ rest ∨ w ∈ visited := by
      rintro w (hwork | hvisited)
      · rcases mem_cons.1 (hw.subset hwork) with rfl | hrest
        · exact .inr hv
        · exact .inl hrest
      · exact .inr hvisited
    refine ⟨fun w h => hs.sound w (h.imp_left fun hr => hw.symm.subset (.tail _ hr)), ?_, ?_⟩
    · exact fun w hr hwv => hkept w (hs.roots w hr hwv)
    · exact fun u hu w hn hwv => hkept w (hs.next u hu w hn hwv)
  | @visit v work rest more visited hw hv hn hm =>
    have hkept : ∀ w, w ∈ work ∨ w ∈ visited → w ∈ more ++ rest ∨ w ∈ v :: visited := by
      rintro w (hwork | hvisited)
      · rcases mem_cons.1 (hw.subset hwork) with rfl | hrest
        · exact .inr (.head _)
        · exact .inl (mem_append_right _ hrest)
      · exact .inr (.tail _ hvisited)
    have hself := hs.sound v (.inl (hw.symm.subset (.head _)))
    refine ⟨?_, ?_, ?_⟩
    · rintro w (hwork | hvisited)
      · rcases mem_append.1 hwork with hmore | hrest
        · exact .step hself ((hm w).1 hmore).1 ((hm w).1 hmore).2.1
        · exact hs.sound w (.inl (hw.symm.subset (.tail _ hrest)))
      · rcases mem_cons.1 hvisited with rfl | hvisited
        · exact hself
        · exact hs.sound w (.inr hvisited)
    · exact fun w hr hwv => hkept w (hs.roots w hr hwv)
    · intro u hu w hnext hwv
      rcases mem_cons.1 hu with rfl | hu
      · by_cases hseen : w ∈ u :: visited
        · exact .inr hseen
        · exact .inl (mem_append_left _ ((hm w).2 ⟨hnext, hwv, hseen⟩))
      · exact hkept w (hs.next u hu w hnext hwv)

theorem mem_visited (hstart : ∀ w, w ∈ work ↔ w ∈ roots ∧ w ∈ vertices)
    (h : Relation.ReflTransGen (Step vertices next) (work, []) ([], visited)) :
    v ∈ visited ↔ Reached vertices next roots v := by
  have hs : Searching vertices next roots ([], visited) := by
    generalize ([], visited) = t at h
    induction h with
    | refl =>
      refine ⟨?_, fun w hr hwv => .inl ((hstart w).2 ⟨hr, hwv⟩), by simp⟩
      rintro w (hw | hw)
      · exact .root ((hstart w).1 hw).1 ((hstart w).1 hw).2
      · cases hw
    | tail _ hstep ih => exact ih.step hstep
  constructor
  · exact fun hv => hs.sound v (.inr hv)
  · intro hr
    induction hr with
    | root hr hv => exact (hs.roots _ hr hv).resolve_left (by simp)
    | step _ hn hv ih => exact (hs.next _ ih _ hn hv).resolve_left (by simp)

theorem exists_search (work visited : List α) (hwork : ∀ w ∈ work, w ∈ vertices) :
    ∃ found, Relation.ReflTransGen (Step vertices next) (work, visited) ([], found) := by
  have hwf : WellFounded fun t s => Step vertices next s t := wellFounded_step
  generalize hs : (work, visited) = s
  induction s using hwf.induction generalizing work visited with
  | _ s ih =>
    subst hs
    cases work with
    | nil => exact ⟨visited, .refl⟩
    | cons v rest =>
      obtain ⟨hv, hrest⟩ := forall_mem_cons.1 hwork
      by_cases hn : v ∈ visited
      · have hstep : Step vertices next (v :: rest, visited) (rest, visited) := .skip (.refl _) hn
        obtain ⟨found, hrun⟩ := ih _ hstep rest visited hrest rfl
        exact ⟨found, .head hstep hrun⟩
      · let more := (next v).filter fun w => w ∈ vertices ∧ w ∉ v :: visited
        have hmore : ∀ w, w ∈ more ↔ w ∈ next v ∧ w ∈ vertices ∧ w ∉ v :: visited := by simp [more]
        have hstep : Step vertices next (v :: rest, visited) (more ++ rest, v :: visited) :=
          .visit (.refl _) hv hn hmore
        obtain ⟨found, hrun⟩ := ih _ hstep (more ++ rest) (v :: visited) (fun w hw => by
          rcases mem_append.1 hw with hw | hw
          · exact ((hmore w).1 hw).2.1
          · exact hrest w hw) rfl
        exact ⟨found, .head hstep hrun⟩

end CallAtlas.Graph
