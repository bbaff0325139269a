import CallAtlas.Ir.Literal
import CallAtlas.Text.Printable
import CallAtlas.Text.Unpaired

/-!
# Symbol names

A name is written bare if it consists of name characters, or of digits alone, and any other name in
quotes.
-/

namespace CallAtlas.Ir

open Text

def isNameStart (c : Char) : Bool :=
  ('a' ≤ c && c ≤ 'z') || ('A' ≤ c && c ≤ 'Z') || c = '-' || c = '$' || c = '.' || c = '_'

def isNameChar (c : Char) : Bool := isNameStart c || ('0' ≤ c && c ≤ '9')

def bareName? : List Char → Option (List Char × List Char)
  | c :: r =>
    if isNameStart c then some (c :: r.takeWhile isNameChar, r.dropWhile isNameChar) else none
  | [] => none

theorem bareName?_split {s name rest : List Char} (h : bareName? s = some (name, rest)) :
    s = name ++ rest ∧ name ≠ [] := by
  cases s with
  | nil => simp [bareName?] at h
  | cons c r =>
    by_cases hc : isNameStart c
    · simp only [bareName?, hc, if_true, Option.some.injEq, Prod.mk.injEq] at h
      obtain ⟨rfl, rfl⟩ := h
      simp [List.takeWhile_append_dropWhile]
    · simp [bareName?, hc] at h

/-- A run of characters of a class at the head of a text, at least one, and the rest. -/
def run? (p : Char → Bool) (s : List Char) : Option (List Char × List Char) :=
  match s.takeWhile p with
  | [] => none
  | ds => some (ds, s.dropWhile p)

theorem run?_split {p : Char → Bool} {s ds rest : List Char} (h : run? p s = some (ds, rest)) :
    s = ds ++ rest ∧ ds ≠ [] := by
  unfold run? at h
  split at h
  · simp at h
  · next hne =>
    simp only [Option.some.injEq, Prod.mk.injEq] at h
    obtain ⟨rfl, rfl⟩ := h
    exact ⟨List.takeWhile_append_dropWhile.symm, hne⟩

/-- Whether a name consists of name characters. One line feed at the end of the name is let
through. -/
def isBareName (name : List Char) : Bool :=
  match bareName? name with
  | some (_, rest) => rest = [] || rest = ['\n']
  | none => false

def isNumberName (name : List Char) : Bool := name ≠ [] && name.all isDigitSign

def escapeChar (c : Char) : List Char :=
  if c = '"' ∨ c = '\\' ∨ ¬ isPrintable c then '\\' :: upperHexDigits 2 (codeOf c) else [c]

def escape (name : List Char) : List Char := name.flatMap escapeChar

def writeName (sigil : List Char) (name : List Char) : List Char :=
  if isBareName name || isNumberName name then sigil ++ name
  else sigil ++ '"' :: escape name ++ ['"']

/-- A name as it stands in a text: bare, or the body of a quoted one. -/
inductive Spelling where
  | bare (name : List Char)
  | quoted (body : List Char)
  deriving DecidableEq, Repr

/-- The characters of a spelling, with escapes left as they are. -/
def Spelling.raw : Spelling → List Char
  | .bare name => name
  | .quoted body => body

def Spelling.name : Spelling → List Char
  | .bare name => name
  | .quoted body => unescape body

/-- A spelling at the head of a text: a quoted name, or a run accepted by `bare`. -/
def spelling? (bare : List Char → Option (List Char × List Char)) :
    List Char → Option (Spelling × List Char × List Char)
  | '"' :: r => (closeQuote r).map fun p => (.quoted p.1, '"' :: p.1 ++ ['"'], p.2)
  | s => (bare s).map fun p => (.bare p.1, p.1, p.2)

theorem spelling?_split {bare : List Char → Option (List Char × List Char)}
    (hb : ∀ {s n r}, bare s = some (n, r) → s = n ++ r ∧ n ≠ [])
    {s text rest : List Char} {w : Spelling} (h : spelling? bare s = some (w, text, rest)) :
    s = text ++ rest ∧ text ≠ [] := by
  unfold spelling? at h
  split at h
  · obtain ⟨⟨b, t⟩, hp, he⟩ := Option.map_eq_some_iff.1 h
    simp only [Prod.mk.injEq] at he
    obtain ⟨_, rfl, rfl⟩ := he
    simp [closeQuote_split hp]
  · obtain ⟨⟨b, t⟩, hp, he⟩ := Option.map_eq_some_iff.1 h
    simp only [Prod.mk.injEq] at he
    obtain ⟨_, rfl, rfl⟩ := he
    exact hb hp

/-- The bare form of a global name: a bare name, or a decimal number. -/
def globalName? (s : List Char) : Option (List Char × List Char) :=
  (bareName? s).orElse fun _ => run? isDecimal s

theorem globalName?_split {s name rest : List Char} (h : globalName? s = some (name, rest)) :
    s = name ++ rest ∧ name ≠ [] := by
  unfold globalName? at h
  cases hb : bareName? s with
  | none => simp only [hb, Option.orElse_none] at h; exact run?_split h
  | some p =>
    simp only [hb, Option.orElse_some, Option.some.injEq] at h; exact bareName?_split (h ▸ hb)

end CallAtlas.Ir
