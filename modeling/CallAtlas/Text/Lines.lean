import CallAtlas.Text.Blank

/-!
# Lines

A text is divided at every line break of Unicode; a carriage return and the line feed behind it are
one break.
-/

namespace CallAtlas.Text

def breakRanges : List (Nat × Nat) :=
  [(0xA, 0xD), (0x1C, 0x1E), (0x85, 0x85), (0x2028, 0x2029)]

def isBreak (c : Char) : Bool := inRanges breakRanges c

def dropBreak : List Char → List Char
  | [] => []
  | '\r' :: '\n' :: r => r
  | _ :: r => r

theorem length_dropBreak_le (s : List Char) : (dropBreak s).length ≤ s.length - 1 := by
  unfold dropBreak
  split
  · simp
  · simp
  · simp

def lines : List Char → List (List Char)
  | [] => []
  | c :: r =>
    (c :: r).takeWhile (!isBreak ·) :: lines (dropBreak ((c :: r).dropWhile (!isBreak ·)))
termination_by s => s.length
decreasing_by
  have h₁ := length_dropBreak_le ((c :: r).dropWhile (!isBreak ·))
  have h₂ := length_dropWhile_le (!isBreak ·) (c :: r)
  simp only [List.length_cons] at *
  omega

/-- The text with every carriage return, alone or before a line feed, as one line feed. -/
def unifyBreaks : List Char → List Char
  | [] => []
  | '\r' :: '\n' :: r => '\n' :: unifyBreaks r
  | c :: r => (if c = '\r' then '\n' else c) :: unifyBreaks r

end CallAtlas.Text
