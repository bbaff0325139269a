import CallAtlas.Json.Basic
import CallAtlas.Text.Unpaired

/-!
# Writing documents

Values are written in ASCII: every other character is escaped by its code units.
-/

namespace CallAtlas.Json

open Text

def unitEscape (n : Nat) : List Char := '\\' :: 'u' :: hexDigits 4 n

def escapeChar (c : Char) : List Char :=
  match c with
  | '"' => ['\\', '"']
  | '\\' => ['\\', '\\']
  | '\n' => ['\\', 'n']
  | '\r' => ['\\', 'r']
  | '\t' => ['\\', 't']
  | '\x08' => ['\\', 'b']
  | '\x0c' => ['\\', 'f']
  | c =>
    let n := codeOf c
    if 0x20 ≤ n ∧ n < 0x7F then [c]
    else if n < 0x10000 then unitEscape n
    else unitEscape (0xD800 + (n - 0x10000) / 0x400) ++ unitEscape (0xDC00 + (n - 0x10000) % 0x400)

def renderString (s : String) : String :=
  "\"" ++ String.ofList (s.toList.flatMap escapeChar) ++ "\""

def sortMembers (members : List (String × Json)) : List (String × Json) :=
  members.mergeSort fun a b => a.1 ≤ b.1

mutual

def sortKeys : Json → Json
  | .arr items => .arr (sortKeysItems items)
  | .obj members => .obj (sortMembers (sortKeysMembers members))
  | j => j

def sortKeysItems : List Json → List Json
  | [] => []
  | j :: r => sortKeys j :: sortKeysItems r

def sortKeysMembers : List (String × Json) → List (String × Json)
  | [] => []
  | (k, j) :: r => (k, sortKeys j) :: sortKeysMembers r

end

mutual

def render : Json → String
  | .null => "null"
  | .bool b => if b then "true" else "false"
  | .num n => n.render Decimal.document
  | .str s => renderString s
  | .arr items => "[" ++ ", ".intercalate (renderItems items) ++ "]"
  | .obj members => "\x7b" ++ ", ".intercalate (renderMembers members) ++ "\x7d"

def renderItems : List Json → List String
  | [] => []
  | j :: r => render j :: renderItems r

def renderMembers : List (String × Json) → List String
  | [] => []
  | (k, j) :: r => (renderString k ++ ": " ++ render j) :: renderMembers r

end

def newline (depth : Nat) : String := "\n" ++ String.ofList (List.replicate (2 * depth) ' ')

mutual

/-- A value with every item on a line of its own, indented by two blanks for each level. -/
def renderIndented (depth : Nat) : Json → String
  | .arr (j :: r) =>
    let items := indentedItems (depth + 1) (j :: r)
    "[" ++ newline (depth + 1) ++ ("," ++ newline (depth + 1)).intercalate items ++
      newline depth ++ "]"
  | .obj (m :: r) =>
    let items := indentedMembers (depth + 1) (m :: r)
    "\x7b" ++ newline (depth + 1) ++ ("," ++ newline (depth + 1)).intercalate items ++
      newline depth ++ "\x7d"
  | j => render j

def indentedItems (depth : Nat) : List Json → List String
  | [] => []
  | j :: r => renderIndented depth j :: indentedItems depth r

def indentedMembers (depth : Nat) : List (String × Json) → List String
  | [] => []
  | (k, j) :: r => (renderString k ++ ": " ++ renderIndented depth j) :: indentedMembers depth r

end

end CallAtlas.Json
