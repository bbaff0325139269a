/-!
# Name patterns

Patterns with `*`, `?` and sets, `[…]` and `[!…]`. A bracket without its partner stands for itself;
a closing bracket that comes first in a set is a member; a range whose ends are in the wrong order
is empty.
-/

namespace CallAtlas.Text

/-- A set of characters: closed ranges, or everything outside them. -/
structure CharSet where
  negated : Bool
  ranges : List (Char × Char)
  deriving DecidableEq, Repr

def CharSet.contains (s : CharSet) (c : Char) : Bool :=
  s.negated ^^ s.ranges.any fun r => r.1 ≤ c && c ≤ r.2

inductive GlobItem where
  | star
  | one
  | char (c : Char)
  | set (s : CharSet)
  deriving DecidableEq, Repr

/-- Divides the text of a set at its range hyphens. A hyphen cannot stand first, and the two
characters behind one are no range hyphen again; `wait` counts the characters until the next may
come. -/
def rangeChunks (wait : Nat) (cur : List Char) : List Char → List (List Char)
  | [] => [cur.reverse]
  | c :: r =>
    if c = '-' ∧ wait = 0 then cur.reverse :: rangeChunks 2 [] r
    else rangeChunks (wait - 1) (c :: cur) r

def closeChunks (chunks : List (List Char)) : List (List Char) :=
  match chunks.reverse with
  | [] :: last :: r => ((last ++ ['-']) :: r).reverse
  | _ => chunks

/-- Takes the empty ranges out: the two ends of a range in the wrong order. -/
def dropEmptyRanges : List (List Char) → List (List Char)
  | [] => []
  | chunk :: r =>
    match dropEmptyRanges r with
    | [] => [chunk]
    | next :: rest =>
      match chunk.getLast?, next.head? with
      | some lo, some hi =>
        if hi < lo then (chunk.dropLast ++ next.tail) :: rest else chunk :: next :: rest
      | _, _ => chunk :: next :: rest

/-- The chunks in one row, with a range hyphen marked between every two. -/
def markHyphens : List (List Char) → List (Char × Bool)
  | [] => []
  | [chunk] => chunk.map (·, false)
  | chunk :: r => chunk.map (·, false) ++ ('-', true) :: markHyphens r

def readRanges : List (Char × Bool) → List (Char × Char)
  | [] => []
  | [(c, _)] => [(c, c)]
  | [(c, _), (d, _)] => [(c, c), (d, d)]
  | (c, _) :: (d, hyphen) :: (e, m) :: r =>
    if hyphen then (c, e) :: readRanges r else (c, c) :: readRanges ((d, hyphen) :: (e, m) :: r)

def readSet (body : List Char) : GlobItem :=
  let wait := match body with
    | '!' :: _ => 2
    | _ => 1
  match markHyphens (dropEmptyRanges (closeChunks (rangeChunks wait [] body))) with
  | [] => .set ⟨false, []⟩
  | [('!', _)] => .one
  | ('!', _) :: r => .set ⟨true, readRanges r⟩
  | row => .set ⟨false, readRanges row⟩

def setBody? (s : List Char) : Option (List Char × List Char) :=
  let (lead, r) := match s with
    | '!' :: ']' :: r => (['!', ']'], r)
    | '!' :: r => (['!'], r)
    | ']' :: r => ([']'], r)
    | r => ([], r)
  match r.dropWhile (· ≠ ']') with
  | [] => none
  | _ :: rest => some (lead ++ r.takeWhile (· ≠ ']'), rest)

def readGlob : Nat → List Char → List GlobItem
  | 0, _ => []
  | _, [] => []
  | n + 1, c :: r =>
    if c = '*' then .star :: readGlob n r
    else if c = '?' then .one :: readGlob n r
    else if c = '[' then
      match setBody? r with
      | some (body, rest) => readSet body :: readGlob n rest
      | none => .char c :: readGlob n r
    else .char c :: readGlob n r

def matchGlob : List GlobItem → List Char → Bool
  | [], s => s.isEmpty
  | .star :: p, [] => matchGlob p []
  | .star :: p, c :: s => matchGlob p (c :: s) || matchGlob (.star :: p) s
  | .one :: p, _ :: s => matchGlob p s
  | .char d :: p, c :: s => d = c && matchGlob p s
  | .set d :: p, c :: s => d.contains c && matchGlob p s
  | _ :: _, [] => false
termination_by p s => (p.length, s.length)

def isGlob (s : String) : Bool := s.toList.any fun c => c = '*' || c = '?' || c = '['

/-- Whether a pattern matches a whole name. -/
def globMatches (pattern name : String) : Bool :=
  matchGlob (readGlob pattern.length pattern.toList) name.toList

end CallAtlas.Text
