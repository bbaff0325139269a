import CallAtlas.Ir.Name
import CallAtlas.Text.Word

/-!
# Lexemes

A text is a sequence of string literals, references of the kind one looks for, and other characters.
Nothing inside a literal is taken for a reference.
-/

namespace CallAtlas.Ir

open Text

/-- A reader recognises something at the head of a text. What it accepts is a non-empty head: the
written form and the rest together are the text. -/
structure Reader (α : Type) where
  read : List Char → Option (α × List Char × List Char)
  split : ∀ {s text rest : List Char} {a : α}, read s = some (a, text, rest) → s = text ++ rest ∧
    text ≠ []

theorem Reader.rest_lt {α : Type} (R : Reader α) {s text rest : List Char} {a : α}
    (h : R.read s = some (a, text, rest)) : rest.length < s.length := by
  obtain ⟨rfl, hne⟩ := R.split h
  cases text with
  | nil => exact absurd rfl hne
  | cons c r => simp only [List.cons_append, List.length_cons, List.length_append]; omega

def Reader.search? {α : Type} (R : Reader α) : List Char → Option (α × List Char)
  | [] => none
  | c :: r =>
    match R.read (c :: r) with
    | some (a, _, rest) => some (a, rest)
    | none => R.search? r

/-- A reference, or text around references. -/
inductive Lexeme (α : Type) where
  | literal (text : List Char)
  | reference (value : α) (text : List Char)
  | other (c : Char)
  deriving Repr

def Lexeme.text {α : Type} : Lexeme α → List Char
  | .literal t => t
  | .reference _ t => t
  | .other c => [c]

theorem literal?_rest_lt {s text rest : List Char} (h : literal? s = some (text, rest)) :
    rest.length < s.length := by
  obtain ⟨rfl, hne⟩ := literal?_split h
  cases text with
  | nil => exact absurd rfl hne
  | cons c r => simp only [List.cons_append, List.length_cons, List.length_append]; omega

/-- A text as a sequence of lexemes. -/
def lexemes {α : Type} (R : Reader α) : List Char → List (Lexeme α)
  | [] => []
  | c :: r =>
    match _h : literal? (c :: r) with
    | some (text, rest) => .literal text :: lexemes R rest
    | none =>
      match _h : R.read (c :: r) with
      | some (a, text, rest) => .reference a text :: lexemes R rest
      | none => .other c :: lexemes R r
termination_by s => s.length
decreasing_by
  · exact literal?_rest_lt _h
  · exact R.rest_lt _h
  · simp

theorem text_lexemes {α : Type} (R : Reader α) (s : List Char) :
    (lexemes R s).flatMap Lexeme.text = s := by
  fun_induction lexemes R s with
  | case1 => rfl
  | case2 c r text rest h ih => simp [Lexeme.text, ih, (literal?_split h).1]
  | case3 c r _ a text rest h ih => simp [Lexeme.text, ih, (R.split h).1]
  | case4 c r _ _ ih => simp [Lexeme.text, ih]

/-- What a text refers to, in order. -/
def references {α : Type} (R : Reader α) (s : List Char) : List α :=
  (lexemes R s).filterMap fun
    | .reference a _ => some a
    | _ => none

/-- The text with every reference replaced by what `f` makes of it and its written form. -/
def mapReferences {α : Type} (R : Reader α) (f : α → List Char → List Char) (s : List Char) :
    List Char :=
  (lexemes R s).flatMap fun
    | .reference a t => f a t
    | l => l.text

/-! ## Readers for the three kinds of references -/

def sigilRead (sigil : Char) (bare : List Char → Option (List Char × List Char)) :
    List Char → Option (Spelling × List Char × List Char)
  | c :: r => if c = sigil then (spelling? bare r).map fun p => (p.1, c :: p.2.1, p.2.2) else none
  | [] => none

theorem sigilRead_split {sigil : Char} {bare : List Char → Option (List Char × List Char)}
    (hb : ∀ {s n r}, bare s = some (n, r) → s = n ++ r ∧ n ≠ [])
    {s text rest : List Char} {w : Spelling} (h : sigilRead sigil bare s = some (w, text, rest)) :
    s = text ++ rest ∧ text ≠ [] := by
  cases s with
  | nil => simp [sigilRead] at h
  | cons c r =>
    by_cases hc : c = sigil
    · simp only [sigilRead, hc, if_true] at h
      obtain ⟨⟨v, t, u⟩, hp, he⟩ := Option.map_eq_some_iff.1 h
      simp only [Prod.mk.injEq] at he
      obtain ⟨rfl, rfl, rfl⟩ := he
      simp [hc, (spelling?_split hb hp).1]
    · simp [sigilRead, hc] at h

def globalReader : Reader Spelling where
  read := sigilRead '@' globalName?
  split := sigilRead_split globalName?_split

def typeReader : Reader Spelling where
  read := sigilRead '%' bareName?
  split := sigilRead_split bareName?_split

/-- What is numbered: metadata nodes and attribute groups. -/
inductive Numbered where
  | metadata
  | attributes
  deriving DecidableEq, Repr

def Numbered.sigil : Numbered → Char
  | .metadata => '!'
  | .attributes => '#'

def Numbered.ofSigil? (c : Char) : Option Numbered :=
  if c = '!' then some .metadata else if c = '#' then some .attributes else none

def continuesWord : List Char → Bool
  | c :: _ => isWord c
  | [] => false

def numberedRead : List Char → Option ((Numbered × Nat) × List Char × List Char)
  | c :: r =>
    match Numbered.ofSigil? c, run? isDecimal r with
    | some k, some (ds, rest) =>
      if continuesWord rest then none else some ((k, digitsValue ds), c :: ds, rest)
    | _, _ => none
  | [] => none

theorem numberedRead_split {s text rest : List Char} {a : Numbered × Nat}
    (h : numberedRead s = some (a, text, rest)) : s = text ++ rest ∧ text ≠ [] := by
  cases s with
  | nil => simp [numberedRead] at h
  | cons c r =>
    simp only [numberedRead] at h
    split at h
    · next k ds u hk hr =>
      split at h
      · simp at h
      · simp only [Option.some.injEq, Prod.mk.injEq] at h
        obtain ⟨_, rfl, rfl⟩ := h
        simp [(run?_split hr).1]
    · simp at h

def numberedReader : Reader (Numbered × Nat) where
  read := numberedRead
  split := numberedRead_split

/-! ## Changing references -/

/-- The names of the symbols that a text refers to. -/
def globalRefs (text : String) : List String :=
  ((references globalReader text.toList).map fun w => String.ofList w.name).eraseDups

/-- A name as it is written, in quotes if need be. -/
def quoteName (name : String) (sigil : String) : String :=
  String.ofList (writeName sigil.toList name.toList)

/-- Renames the references that `R` reads: a name with a new name takes its written form. -/
def renameWith (R : Reader Spelling) (sigil : String) (rename : String → Option String)
    (text : String) :
    String :=
  String.ofList <| mapReferences R (fun w t =>
    match rename (String.ofList w.name) with
    | some new => writeName sigil.toList new.toList
    | none => t) text.toList

def renameGlobals (rename : String → Option String) (text : String) : String :=
  renameWith globalReader "@" rename text

def renameTypes (rename : String → Option String) (text : String) : String :=
  renameWith typeReader "%" rename text

/-- Adds the offsets to the numbers of metadata nodes and attribute groups. With both offsets zero
the text stays as it is; otherwise every number is written anew in plain decimal. -/
def shiftNumbered (metadataOffset attributeOffset : Int) (text : String) : String :=
  if metadataOffset = 0 ∧ attributeOffset = 0 then text
  else String.ofList <| mapReferences numberedReader (fun a _ =>
    let offset := match a.1 with
      | .metadata => metadataOffset
      | .attributes => attributeOffset
    a.1.sigil :: intDigits (a.2 + offset)) text.toList

end CallAtlas.Ir
