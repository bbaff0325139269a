import CallAtlas.FileTree

/-!
# Logs

One file for each run and phase; what a file name should not hold becomes an underscore.
-/

namespace CallAtlas

/-- A directory of logs. -/
structure LogStore where
  directory : String
  deriving DecidableEq, Repr

namespace LogStore

def isSafe (c : Char) : Bool :=
  ('a' ≤ c && c ≤ 'z') || ('A' ≤ c && c ≤ 'Z') || ('0' ≤ c && c ≤ '9') || c = '.' ||
    c = '_' || c = '-'

def flatten : List Char → List Char
  | [] => []
  | c :: r =>
    if isSafe c then c :: flatten r
    else match r with
      | [] => ['_']
      | d :: _ => if isSafe d then '_' :: flatten r else flatten r

/-- The file name of a text: no underscores at its ends, unless it is nothing else. -/
def safeName (s : String) : String :=
  let middle := ((flatten s.toList).dropWhile (· = '_')).reverse.dropWhile (· = '_')
  if middle.isEmpty then "_" else String.ofList middle.reverse

def runDirectory (l : LogStore) (run : String) : String :=
  Path.tidy (Path.join (Path.tidy l.directory) (safeName run))

def path (l : LogStore) (run phase : String) : String :=
  Path.tidy (Path.join (l.runDirectory run) (safeName phase ++ ".log"))

def append (l : LogStore) (files : FileTree) (run phase text : String) : Except Failure FileTree :=
  do
  let files ← files.makeDirectories (l.runDirectory run)
  files.append (l.path run phase) (Bytes.ofText text)

def read (l : LogStore) (files : FileTree) (run phase : String) : Except Failure String :=
  if files.hasPath (l.path run phase) then files.readText (l.path run phase) else .ok ""

def delete (l : LogStore) (files : FileTree) (run : String) : FileTree × Except Failure Unit :=
  if files.hasPath (l.runDirectory run) then files.removeDirectory (l.runDirectory run)
    else (files, .ok ())

end LogStore

end CallAtlas
