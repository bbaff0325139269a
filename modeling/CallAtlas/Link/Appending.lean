import CallAtlas.Fault
import CallAtlas.Ir.Bracket
import CallAtlas.Ir.Name

/-!
# Appending arrays

Two arrays of one name, `… [2 x ptr] [ptr @a, ptr @b], …`, are joined: their counts add up.
-/

namespace CallAtlas.Link

open Text Ir

/-- Why two modules cannot be merged. -/
inductive MergeError where
  | tripleMismatch (present incoming origin : String)
  | layoutMismatch (present incoming origin : String)
  | notArray (name segment : String)
  | badInitializer (name : String)
  | duplicate (symbol first second : String)
  deriving DecidableEq, Repr

def MergeError.cause : MergeError → Cause
  | .tripleMismatch present incoming origin =>
    .link ("target triple mismatch: '" ++ present ++ "' vs '" ++ incoming ++ "' (" ++ origin ++ ")")
  | .layoutMismatch present incoming origin =>
    .link ("data layout mismatch: '" ++ present ++ "' vs '" ++ incoming ++ "' (" ++ origin ++ ")")
  | .notArray name segment =>
    .link ("appending global @" ++ name ++ " is not an array: " ++
      String.ofList (segment.toList.take 120))
  | .badInitializer name => .link ("cannot parse initializer of appending global @" ++ name)
  | .duplicate symbol first second => .duplicate symbol first second

/-- An array in a definition: what stands around its type and its elements. -/
structure ArrayText where
  before : List Char
  count : Nat
  elementType : List Char
  elements : List (List Char)
  behind : List Char
  deriving DecidableEq, Repr

def arrayHead? : List Char → Option (Nat × List Char)
  | '[' :: r =>
    match run? isDecimal (trimLeft r) with
    | some (ds, c :: r) =>
      if isBlank c then
        match trimLeft r with
        | 'x' :: d :: t => if isBlank d then some (digitsValue ds, trimLeft t) else none
        | _ => none
      else none
    | _ => none
  | _ => none

/-- The first array type of a text: what stands before it, its count, the rest from its bracket on,
and the rest behind its head. -/
def findArray? (before : List Char) : List Char → Option (List Char × Nat × List Char × List Char)
  | [] => none
  | c :: r =>
    match arrayHead? (c :: r) with
    | some (count, inner) => some (before.reverse, count, c :: r, inner)
    | none => findArray? (c :: before) r

/-- Finds the array type and the initializer of a definition. -/
def splitArray (segment : List Char) (name : String) : Except MergeError ArrayText :=
  match findArray? [] segment with
  | none => .error (.notArray name (String.ofList segment))
  | some (before, count, type, inner) =>
    match closingOffset? type with
    | none => .error (.badInitializer name)
    | some k =>
      let init := (type.drop (k + 1)).dropWhile (· ≠ '[')
      match closingOffset? init with
      | none => .error (.badInitializer name)
      | some n =>
        let typeLength := k - (type.length - inner.length)
        .ok ⟨before, count, trim (inner.take typeLength), fields ((init.drop 1).take (n - 1)),
          init.drop (n + 1)⟩

def ArrayText.render (a : ArrayText) : List Char :=
  a.before ++ '[' :: natDigits a.count ++ " x ".toList ++ a.elementType ++ "] [".toList ++
    [',', ' '].intercalate a.elements ++ ']' :: a.behind

/-- One array behind the other. -/
def ArrayText.append (a b : ArrayText) : ArrayText :=
  { a with count := a.count + b.count, elements := a.elements ++ b.elements }

/-- The definition of an appending array with the elements of both. -/
def joinArrays (first second name : String) : Except MergeError String := do
  let a ← splitArray first.toList name
  let b ← splitArray second.toList name
  pure (String.ofList (a.append b).render)

end CallAtlas.Link
