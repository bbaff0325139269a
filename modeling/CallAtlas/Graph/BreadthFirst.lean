import CallAtlas.Graph.Reach

/-!
# Breadth-first order

Things are told apart by a key, and only keys of a finite graph are followed.
-/

namespace CallAtlas.Graph

variable {α κ : Type} [DecidableEq κ]

/-- The things of a list that are new, each at its first occurrence, and the keys seen after
them. -/
def fresh (vertices : List κ) (key : α → κ) : List κ → List α → List α × List κ
  | seen, [] => ([], seen)
  | seen, a :: r =>
    if key a ∈ vertices ∧ key a ∉ seen then
      let (out, seen) := fresh vertices key (key a :: seen) r
      (a :: out, seen)
    else fresh vertices key seen r

theorem unvisited_fresh_le (vertices : List κ) (key : α → κ) (seen : List κ) (xs : List α) :
    unvisited vertices (fresh vertices key seen xs).2 + (fresh vertices key seen xs).1.length ≤
      unvisited vertices seen := by
  induction xs generalizing seen with
  | nil => simp [fresh]
  | cons a r ih =>
    simp only [fresh]
    split
    · rename_i h
      have h₁ := ih (key a :: seen)
      have h₂ := unvisited_cons_lt h.1 h.2
      simp only [List.length_cons]
      omega
    · exact ih seen

/-- What a search finds that has a queue of things to look at and keys already seen. -/
def breadthFirst (vertices : List κ) (key : α → κ) (next : α → List α) (queue : List α)
    (seen : List κ) : List α :=
  match queue with
  | [] => []
  | a :: rest =>
    let found := fresh vertices key seen (next a)
    found.1 ++ breadthFirst vertices key next (rest ++ found.1) found.2
termination_by unvisited vertices seen + queue.length
decreasing_by
  have h := unvisited_fresh_le vertices key seen (next a)
  simp only [List.length_append, List.length_cons]
  omega

end CallAtlas.Graph
