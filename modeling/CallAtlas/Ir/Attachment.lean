import CallAtlas.Ir.Name
import CallAtlas.Text.Word

/-!
# Attachments

What a text carries along: a debug location, `!dbg !7`, and membership in a comdat group,
`comdat($name)`.
-/

namespace CallAtlas.Ir

open Text

def isLocalChar (c : Char) : Bool := isWord c || c = '-' || c = '$' || c = '.'

def debugAt? (s : List Char) : Option Nat := do
  let r ← dropHead? "!dbg".toList s
  let c ← r.head?
  if !isBlank c then none
  match trimLeft r with
  | '!' :: t => (run? isDecimal t).map fun p => digitsValue p.1
  | _ => none

def debugRef? : List Char → Option Nat
  | [] => none
  | c :: r => (debugAt? (c :: r)).orElse fun _ => debugRef? r

/-- The group named behind the keyword: `($name)`, with blanks around every part. -/
def comdatGroup? (s : List Char) : Option (List Char × List Char) :=
  match trimLeft s with
  | '(' :: r =>
    match trimLeft r with
    | '$' :: r =>
      match (quoted? r).orElse fun _ => run? isNameChar r with
      | some (name, r) =>
        match trimLeft r with
        | ')' :: rest => some (name, rest)
        | _ => none
      | none => none
    | _ => none
  | _ => none

def startsLocal : List Char → Bool
  | c :: _ => isLocalChar c
  | [] => false

/-- Reads the keyword `comdat` and the group behind it, if one is named: the group and the rest. -/
def comdatAt? (s : List Char) : Option (Option (List Char) × List Char) :=
  match dropHead? "comdat".toList s with
  | none => none
  | some r =>
    if startsLocal r then none
    else match comdatGroup? r with
      | some (name, rest) => some (some name, rest)
      | none => some (none, r)

theorem length_trimLeft_cons {s r : List Char} {c : Char} (h : trimLeft s = c :: r) :
    r.length < s.length := by
  have := length_trimLeft_le s
  rw [h, List.length_cons] at this
  omega

theorem comdatGroup?_rest_lt {s name rest : List Char} (h : comdatGroup? s = some (name, rest)) :
    rest.length < s.length := by
  unfold comdatGroup? at h
  split at h
  · next r h₁ =>
    split at h
    · next r' h₂ =>
      split at h
      · next nm r'' h₃ =>
        split at h
        · next t h₄ =>
          simp only [Option.some.injEq, Prod.mk.injEq] at h
          obtain ⟨rfl, rfl⟩ := h
          have e₁ := length_trimLeft_cons h₁
          have e₂ := length_trimLeft_cons h₂
          have e₄ := length_trimLeft_cons h₄
          have e₃ : r''.length ≤ r'.length := by
            cases hq : quoted? r' with
            | none =>
              simp only [hq, Option.orElse_none] at h₃
              simp [(run?_split h₃).1]
            | some p =>
              simp only [hq, Option.orElse_some, Option.some.injEq] at h₃
              simp [(quoted?_split (h₃ ▸ hq)).1]
          omega
        · simp at h
      · simp at h
    · simp at h
  · simp at h

theorem comdatAt?_rest_lt {s rest : List Char} {g : Option (List Char)}
    (h : comdatAt? s = some (g, rest)) : rest.length < s.length := by
  unfold comdatAt? at h
  split at h
  · simp at h
  · next r hr =>
    have hs := congrArg List.length (dropHead?_eq_some hr)
    have hw : "comdat".toList.length = 6 := by decide
    rw [List.length_append, hw] at hs
    split at h
    · simp at h
    · split at h
      · next name t ht =>
        simp only [Option.some.injEq, Prod.mk.injEq] at h
        have := comdatGroup?_rest_lt ht
        rw [← h.2]
        omega
      · simp only [Option.some.injEq, Prod.mk.injEq] at h
        rw [← h.2]
        omega

/-- Whether a keyword may follow the character `previous`. -/
def keywordMayFollow (previous : Option Char) : Bool :=
  match previous with
  | some c => !(isLocalChar c || c = '@' || c = '%' || c = '"')
  | none => true

/-- The first `comdat` keyword of a text: the group it names, if any. `previous` is the character
before. -/
def findComdat? (previous : Option Char) : List Char → Option (Option (List Char))
  | [] => none
  | c :: r =>
    match (if keywordMayFollow previous then comdatAt? (c :: r) else none) with
    | some (g, _) => some g
    | none => findComdat? (some c) r

def stripQuotes (s : List Char) : List Char :=
  ((s.dropWhile (· = '"')).reverse.dropWhile (· = '"')).reverse

def comdatOf (text ownName : String) : Option String :=
  (findComdat? none text.toList).map fun
    | some g => String.ofList (stripQuotes g)
    | none => ownName

/-- The text without its `comdat` keywords and the groups they name. -/
def eraseComdat (previous : Option Char) (s : List Char) : List Char :=
  match s with
  | [] => []
  | c :: r =>
    match _h : comdatAt? (c :: r) with
    | some (_, rest) =>
      if keywordMayFollow previous then
        eraseComdat ((c :: r).take ((c :: r).length - rest.length)).getLast? rest
      else c :: eraseComdat (some c) r
    | none => c :: eraseComdat (some c) r
termination_by s.length
decreasing_by
  · exact comdatAt?_rest_lt _h
  · simp
  · simp

def joinSpaces : List Char → List Char
  | ' ' :: ' ' :: r => ' ' :: joinSpaces r
  | c :: r => c :: joinSpaces r
  | [] => []

def eraseComdatClause (s : List Char) : List Char :=
  match s with
  | [] => []
  | c :: r =>
    match _h : comdatAt? (trimLeft r) with
    | some (_, rest) => if c = ',' then eraseComdatClause rest else c :: eraseComdatClause r
    | none => c :: eraseComdatClause r
termination_by s.length
decreasing_by
  · have h₁ := comdatAt?_rest_lt _h
    have h₂ := length_trimLeft_le r
    simp only [List.length_cons]
    omega
  · simp
  · simp

end CallAtlas.Ir
