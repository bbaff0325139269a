/-! # Replacing -/

namespace CallAtlas.Text

def replaceAll (old new : List Char) : List Char → List Char
  | [] => []
  | c :: r =>
    if _h : old.isPrefixOf (c :: r) = true ∧
      old ≠ [] then new ++ replaceAll old new ((c :: r).drop old.length)
    else c :: replaceAll old new r
termination_by s => s.length
decreasing_by
  · have : 0 < old.length := List.length_pos_iff.2 _h.2
    simp only [List.length_drop, List.length_cons]
    omega
  · simp

end CallAtlas.Text
