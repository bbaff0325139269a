import CallAtlas.Text.Digit

/-!
# String literals and escapes

A quoted string runs to the next quote that no backslash escapes. A backslash and two hexadecimal
digits write one character.
-/

namespace CallAtlas.Ir

open Text

/-- Reads behind an opening quote: the body up to the closing quote, and what follows that quote. A
backslash takes the character behind it along, but it cannot escape a line feed. -/
def closeQuote : List Char → Option (List Char × List Char)
  | [] => none
  | '"' :: r => some ([], r)
  | '\\' :: '\n' :: _ => none
  | '\\' :: c :: r => (closeQuote r).map fun p => ('\\' :: c :: p.1, p.2)
  | ['\\'] => none
  | c :: r => (closeQuote r).map fun p => (c :: p.1, p.2)

theorem closeQuote_split {s body rest : List Char} (h : closeQuote s = some (body, rest)) :
    s = body ++ '"' :: rest := by
  fun_induction closeQuote s generalizing body with
  | case1 => simp at h
  | case2 r => simp_all
  | case3 => simp at h
  | case4 c r _ ih =>
    obtain ⟨⟨b, t⟩, hp, he⟩ := Option.map_eq_some_iff.1 h
    simp only [Prod.mk.injEq] at he
    obtain ⟨rfl, rfl⟩ := he
    simp [ih hp]
  | case5 => simp at h
  | case6 c r _ _ _ _ ih =>
    obtain ⟨⟨b, t⟩, hp, he⟩ := Option.map_eq_some_iff.1 h
    simp only [Prod.mk.injEq] at he
    obtain ⟨rfl, rfl⟩ := he
    simp [ih hp]

/-- A quoted string at the head of a text, with its quotes, and the rest. -/
def quoted? : List Char → Option (List Char × List Char)
  | '"' :: r => (closeQuote r).map fun p => ('"' :: p.1 ++ ['"'], p.2)
  | _ => none

theorem quoted?_split {s text rest : List Char} (h : quoted? s = some (text, rest)) :
    s = text ++ rest ∧ text ≠ [] := by
  unfold quoted? at h
  split at h
  · obtain ⟨⟨b, t⟩, hp, he⟩ := Option.map_eq_some_iff.1 h
    simp only [Prod.mk.injEq] at he
    obtain ⟨rfl, rfl⟩ := he
    simp [closeQuote_split hp]
  · simp at h

def literal? : List Char → Option (List Char × List Char)
  | 'c' :: r => (quoted? r).map fun p => ('c' :: p.1, p.2)
  | s => quoted? s

theorem literal?_split {s text rest : List Char} (h : literal? s = some (text, rest)) :
    s = text ++ rest ∧ text ≠ [] := by
  unfold literal? at h
  split at h
  · obtain ⟨⟨b, t⟩, hp, he⟩ := Option.map_eq_some_iff.1 h
    simp only [Prod.mk.injEq] at he
    obtain ⟨rfl, rfl⟩ := he
    simp [(quoted?_split hp).1]
  · exact quoted?_split h

/-- Decodes the body of a string: a backslash and two hexadecimal digits are the character with that
number, every other character is itself. -/
def unescape : List Char → List Char
  | '\\' :: a :: b :: r =>
    match hexValue? a, hexValue? b with
    | some x, some y => Char.ofNat (16 * x + y) :: unescape r
    | _, _ => '\\' :: unescape (a :: b :: r)
  | c :: r => c :: unescape r
  | [] => []

end CallAtlas.Ir
