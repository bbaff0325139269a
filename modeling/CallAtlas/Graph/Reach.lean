/-!
# Reachability

The vertices of a finite graph that can be reached from given ones along successors.
-/

namespace CallAtlas.Graph

variable {α : Type} [DecidableEq α]

def unvisited (vertices visited : List α) : Nat :=
  (vertices.filter fun v => decide (v ∉ visited)).length

theorem unvisited_cons_lt {vertices visited : List α} {v : α} (hu : v ∈ vertices)
    (hv : v ∉ visited) :
    unvisited vertices (v :: visited) < unvisited vertices visited := by
  have h : (vertices.filter fun w => decide (w ∉ v :: visited)) =
      (vertices.filter fun w => decide (w ∉ visited)).filter fun w => decide (w ≠ v) := by
    rw [List.filter_filter]
    congr 1
    funext w
    by_cases h₁ : w = v <;> by_cases h₂ : w ∈ visited <;> simp [h₁, h₂]
  unfold unvisited
  rw [h, List.length_filter_lt_length_iff_exists]
  exact ⟨v, by simp [hu, hv], by simp⟩

/-- Works the list off: each vertex is visited once, with its neighbours after it. -/
def reach (vertices : List α) (next : α → List α) (work visited : List α) : List α :=
  match work with
  | [] => visited
  | v :: rest =>
    if _h : v ∈ vertices ∧ v ∉ visited then reach vertices next (next v ++ rest) (v :: visited)
    else reach vertices next rest visited
termination_by (unvisited vertices visited, work.length)
decreasing_by
  · exact Prod.Lex.left _ _ (unvisited_cons_lt _h.1 _h.2)
  · exact Prod.Lex.right _ (by simp)

/-- What is reachable from the roots. -/
def reachable (vertices : List α) (next : α → List α) (roots : List α) : List α :=
  reach vertices next roots []

end CallAtlas.Graph
