/-!
# White space

The class is the Unicode one together with the four ASCII separators.
-/

namespace CallAtlas.Text

def inRanges (ranges : List (Nat × Nat)) (c : Char) : Bool :=
  ranges.any fun r => r.1 ≤ c.toNat && c.toNat ≤ r.2

/-- Closed ranges by their steps: how far a range starts behind the end of the one before, and how
many numbers follow its first. -/
def rangesFrom (last : Nat) : List Nat → List (Nat × Nat)
  | gap :: more :: r => (last + gap, last + gap + more) :: rangesFrom (last + gap + more) r
  | _ => []

def blankRanges : List (Nat × Nat) :=
  [(0x9, 0xD), (0x1C, 0x20), (0x85, 0x85), (0xA0, 0xA0), (0x1680, 0x1680), (0x2000, 0x200A),
   (0x2028, 0x2029), (0x202F, 0x202F), (0x205F, 0x205F), (0x3000, 0x3000)]

def isBlank (c : Char) : Bool := inRanges blankRanges c

def trimLeft (s : List Char) : List Char := s.dropWhile isBlank

def trimRight (s : List Char) : List Char := (s.reverse.dropWhile isBlank).reverse

def trim (s : List Char) : List Char := trimRight (trimLeft s)

/-- White space around a number: white space but the four ASCII separators. -/
def isPadding (c : Char) : Bool := isBlank c && !inRanges [(0x1C, 0x1F)] c

def dropPadding (s : List Char) : List Char :=
  ((s.dropWhile isPadding).reverse.dropWhile isPadding).reverse

theorem length_dropWhile_le {α : Type} (p : α → Bool) (s : List α) :
    (s.dropWhile p).length ≤ s.length := by
  induction s with
  | nil => simp
  | cons c r ih =>
    rw [List.dropWhile_cons]
    split
    · exact Nat.le_succ_of_le ih
    · exact Nat.le_refl _

theorem length_trimLeft_le (s : List Char) : (trimLeft s).length ≤ s.length :=
  length_dropWhile_le isBlank s

def words : List Char → List (List Char)
  | [] => []
  | c :: r =>
    if isBlank c then words r
    else (c :: r.takeWhile (!isBlank ·)) :: words (r.dropWhile (!isBlank ·))
termination_by s => s.length
decreasing_by
  · simp
  · exact Nat.lt_succ_of_le (length_dropWhile_le _ r)

def startsWith (head s : List Char) : Bool := head.isPrefixOf s

def dropHead? : List Char → List Char → Option (List Char)
  | [], s => some s
  | _ :: _, [] => none
  | h :: hs, c :: s => if h = c then dropHead? hs s else none

theorem dropHead?_eq_some {head s rest : List Char} (h : dropHead? head s = some rest) :
    s = head ++ rest := by
  induction head generalizing s with
  | nil => simpa [dropHead?] using h
  | cons c hs ih =>
    cases s with
    | nil => simp [dropHead?] at h
    | cons d s =>
      by_cases hc : c = d
      · subst hc
        simp only [dropHead?, if_true] at h
        simp [ih h]
      · simp [dropHead?, hc] at h

def find? (part : List Char) : List Char → Option Nat
  | [] => if part = [] then some 0 else none
  | c :: r => if startsWith part (c :: r) then some 0 else (find? part r).map (· + 1)

def hasPart (part s : List Char) : Bool := (find? part s).isSome

end CallAtlas.Text
