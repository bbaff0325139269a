import CallAtlas.Compile.Flags
import CallAtlas.Diagnostic
import CallAtlas.FileTree
import CallAtlas.Json.Reading

/-!
# Compilation databases

The first command of a file is kept; a later one with the same arguments is a duplicate, and one
with other arguments a conflict.
-/

namespace CallAtlas.Compile

/-- Two commands for one file; the first is kept. -/
structure Conflict where
  file : String
  kept : Command
  ignored : Command

def Conflict.diagnostic (c : Conflict) : Diagnostic where
  kind := "compdb-conflict"
  message := "differing compile commands for " ++ c.file ++ "; keeping the first"
  severity := "info"
  file := some c.file
  detail := [("kept", .str c.kept.database), ("ignored", .str c.ignored.database)]

/-- Compile commands by file, and what was noticed on the way. -/
structure Database where
  map : PathMap := {}
  entries : Table String Command := Table.empty
  conflicts : List Conflict := []
  duplicates : Nat := 0
  diagnostics : List Diagnostic := []

namespace Database

def empty (prefixes : List (String × String)) : Database := { map := .ofList prefixes }

/-- Adds a command; one that differs from the one kept is a conflict. -/
def add (d : Database) (c : Command) : Database :=
  match d.entries.get? c.file with
  | none => { d with entries := d.entries.insert c.file c }
  | some kept =>
    if Json.sameItems kept.arguments c.arguments then { d with duplicates := d.duplicates + 1 }
    else
      let conflict : Conflict := ⟨c.file, kept, c⟩
      { d with
        conflicts := d.conflicts ++ [conflict]
        diagnostics := d.diagnostics ++ [conflict.diagnostic] }

def addEntries (database : String) : Database → List Json → Database × Except Failure Unit
  | d, [] => (d, .ok ())
  | d, entry :: r =>
    match Command.ofEntry d.map database entry with
    | .error e => (d, .error e)
    | .ok none => addEntries database d r
    | .ok (some c) => addEntries database (d.add c) r

/-- Adds the entries of a document in order. -/
def addDocument (d : Database) (document : Json) (database : String) :
    Database × Except Failure Unit :=
  match sequence document with
  | .error e => (d, .error e)
  | .ok entries => addEntries database d entries

def loadDocument (files : FileTree) (path : String) : Except Failure (List Json) :=
  match files.readText (Path.tidy path) with
  | .error (.file e) =>
    .error (.of (.config ("Cannot read compilation database " ++ path ++ ": " ++ e.message)))
  | .error e => .error e
  | .ok text =>
    match Json.parse? text with
    | none => .error (.of (.config ("Invalid JSON in compilation database " ++ path)))
    | some (.arr entries) => .ok entries
    | some _ => .error (.of (.config ("Compilation database " ++ path ++ " is not a JSON array")))

/-- The database of documents in files; all are read before the first is added. -/
def ofFiles (files : FileTree) (paths : List String) (prefixes : List (String × String)) :
    Except Failure Database := do
  let documents ← paths.mapM fun p => do pure (p, ← loadDocument files p)
  documents.foldlM (fun d doc =>
    match addEntries doc.1 d doc.2 with
    | (d, .ok ()) => .ok d
    | (_, .error e) => .error e) (.empty prefixes)

/-- Checks how many documents may be read at once; a number, if there is one, is positive. -/
def checkWorkers (workers : Option Int) : Except Failure Unit :=
  match workers with
  | some n => if n ≤ 0 then .error (.invalid "max_workers must be greater than 0") else .ok ()
  | none => .ok ()

def lookup (d : Database) (path : String) : Except Failure Command :=
  let key := d.map.normalize path ""
  match d.entries.get? key with
  | some c => .ok c
  | none => .error (.of (.noCommand key))

def flagsFor (d : Database) (path : String) : Except Failure (List String) :=
  do (← d.lookup path).flags d.map

def contains (d : Database) (path : String) : Bool := d.entries.contains (d.map.normalize path "")

def files (d : Database) : List String := d.entries.keys

end Database

end CallAtlas.Compile
