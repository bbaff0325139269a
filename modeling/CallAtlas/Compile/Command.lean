import CallAtlas.Compile.PathMap
import CallAtlas.Compile.ShellWords
import CallAtlas.Fault
import CallAtlas.Json.Basic

/-!
# Compile commands

Read from entries of compilation databases. An entry without a file is no command.
-/

namespace CallAtlas.Compile

/-- How a file is compiled. -/
structure Command where
  file : String
  /-- The compiler and its arguments; a database may hold other values than texts among them. -/
  arguments : List Json
  /-- The place of the directory it runs in; empty if not known. -/
  directory : String := ""
  output : Json := .null
  database : String := ""

/-- The values that a document value is a sequence of: items, keys or characters. -/
def sequence : Json → Except Failure (List Json)
  | .arr items => .ok items
  | .obj members => .ok (members.map fun m => .str m.1)
  | .str s => .ok (s.toList.map fun c => .str (String.singleton c))
  | _ => .error .wrongType

def argumentsOf (entry : Json) : Except Failure (List Json) :=
  match entry.get? "arguments" with
  | none | some .null =>
    match entry.get? "command" with
    | none => .ok []
    | some (.str s) => .ok ((shellWords s).map .str)
    | some _ => .error .notText
  | some value => sequence value

def directoryOf (entry : Json) : Except Failure String :=
  match entry.get? "directory" with
  | none => .ok ""
  | some (.str s) => .ok s
  | some value => if value.isFalsy then .ok "" else .error .wrongType

/-- The command of an entry; one without a file is left out. -/
def Command.ofEntry (map : PathMap) (database : String) (entry : Json) :
    Except Failure (Option Command) :=
  match entry.get? "file" with
  | none => .ok none
  | some file => do
    let arguments ← argumentsOf entry
    let directory ← directoryOf entry
    match file with
    | .str file =>
      pure (some {
        file := map.normalize file directory
        arguments
        directory := if directory.isEmpty then "" else map.normalize directory ""
        output := (entry.get? "output").getD .null
        database })
    | _ => throw .wrongType

def Command.toJson (c : Command) : Json :=
  .obj [("file", .str c.file), ("arguments", .arr c.arguments), ("directory", .str c.directory),
    ("output", c.output), ("database", .str c.database)]

end CallAtlas.Compile
