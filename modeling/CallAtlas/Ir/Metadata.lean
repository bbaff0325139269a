import CallAtlas.Ir.Bracket
import CallAtlas.Ir.Name
import CallAtlas.Table
import CallAtlas.Text.Word

/-!
# Metadata nodes

A node is a tuple or a record with a kind and named fields, `!DILocation(line: 3, scope: !5)`.
-/

namespace CallAtlas.Ir

open Text

/-- A metadata node as its text. -/
structure MetadataNode where
  id : Nat
  text : String
  deriving DecidableEq, Repr, Inhabited

/-- A field whose number cannot be read: it is written in digit signs that are no decimal digits. -/
structure UnreadableNumber where
  deriving DecidableEq, Repr

/-- Reads the head of a record: its kind, and the text behind the opening parenthesis. -/
def recordHead? (s : List Char) : Option (List Char × List Char) :=
  let s := match dropHead? "distinct".toList s with
    | some (c :: r) => if isBlank c then trimLeft (c :: r) else s
    | _ => s
  match s with
  | '!' :: r =>
    match run? isWord r with
    | some (kind, '(' :: rest) => some (kind, rest)
    | _ => none
  | _ => none

def beforeLastParen (s : List Char) : List Char :=
  match s.reverse.dropWhile (· ≠ ')') with
  | _ :: r => r.reverse
  | [] => s.dropLast

def keyValue? (item : List Char) : Option (List Char × List Char) :=
  match item.dropWhile (· ≠ ':') with
  | _ :: value => some (trim (item.takeWhile (· ≠ ':')), trim value)
  | [] => none

namespace MetadataNode

def isDistinct (n : MetadataNode) : Bool := n.text.startsWith "distinct"

def kind (n : MetadataNode) : String :=
  match recordHead? n.text.toList with
  | some (kind, _) => String.ofList kind
  | none => if hasPart ['!', '\x7b'] (n.text.toList.take 12) then "tuple" else "other"

/-- The fields of a record by their keys. -/
def fields (n : MetadataNode) : Table String String :=
  match recordHead? n.text.toList with
  | some (_, rest) =>
    Table.ofList ((Ir.fields (beforeLastParen rest)).filterMap fun item =>
      (keyValue? item).map fun p => (String.ofList p.1, String.ofList p.2))
  | none => Table.empty

def fieldString (n : MetadataNode) (name : String) : Option String :=
  match (n.fields.get? name).map String.toList with
  | some ('"' :: r) => some (String.ofList r.dropLast)
  | _ => none

/-- The node that a field refers to. -/
def fieldRef (n : MetadataNode) (name : String) : Except UnreadableNumber (Option Nat) :=
  match (n.fields.get? name).map String.toList with
  | some ('!' :: r) =>
    if isNumberName r then
      match readInt? r with
      | some i => .ok (some i.toNat)
      | none => .error ⟨⟩
    else .ok none
  | _ => .ok none

def fieldInt (n : MetadataNode) (name : String) : Option Int :=
  (n.fields.get? name).bind fun v => readInt? v.toList

def line (n : MetadataNode) : String := "!" ++ String.ofList (natDigits n.id) ++ " = " ++ n.text

end MetadataNode

end CallAtlas.Ir
