import CallAtlas.Fault
import CallAtlas.Path
import CallAtlas.Table
import CallAtlas.Text.Lines
import CallAtlas.Text.Utf8

/-!
# File trees

Files and directories as a value; every directory on the way to one is there.
-/

namespace CallAtlas

/-- The content of a file. -/
structure FileTree.File where
  data : Bytes
  executable : Bool := false
  deriving DecidableEq, Repr

/-- Files and directories by their places. -/
structure FileTree where
  files : Table (List String) FileTree.File := Table.empty
  directories : List (List String) := []
  current : List String := ["work"]

namespace FileTree

def hasFile (t : FileTree) (place : List String) : Bool := t.files.contains place

def hasDirectory (t : FileTree) (place : List String) : Bool :=
  (t.current :: t.directories).any place.isPrefixOf ||
    t.files.keys.any fun f => place.isPrefixOf f && place ≠ f

def longestName : Nat := 255

def pathLimit : Nat := 4096

/-- Follows one component of a path. -/
def step (t : FileTree) (path : String) (place : List String) (comp : String) :
    Except FileError (List String) :=
  if t.hasFile place then .error (.notDirectory path)
  else if !t.hasDirectory place then .error (.notFound path)
  else if comp = "" ∨ comp = "." then .ok place
  else if comp = ".." then .ok place.dropLast
  else if longestName < comp.utf8ByteSize then .error (.nameTooLong path)
  else .ok (place ++ [comp])

def start (t : FileTree) (path : String) : List String :=
  if Path.isAbsolute path then [] else t.current

/-- A path must hold no zero character and be neither empty nor too long. -/
def checkPath (path : String) : Except Failure Unit :=
  if path.toList.contains '\x00' then .error (.invalid "embedded null byte")
  else if path.isEmpty then .error (.file (.notFound path))
  else if pathLimit ≤ path.utf8ByteSize then .error (.file (.nameTooLong path))
  else .ok ()

/-- The place that components of a path lead to; the last one may be missing. -/
def follow (t : FileTree) (path : String) (comps : List String) : Except Failure (List String) :=
  match comps.foldlM (t.step path) (t.start path) with
  | .ok place => .ok place
  | .error e => .error (.file e)

def locate (t : FileTree) (path : String) : Except Failure (List String) := do
  checkPath path
  t.follow path (Path.components path)

def file (t : FileTree) (path : String) : Except Failure File := do
  let place ← t.locate path
  match t.files.get? place with
  | some f => pure f
  | none => throw (.file (if t.hasDirectory place then .isDirectory path else .notFound path))

def read (t : FileTree) (path : String) : Except Failure Bytes := (t.file path).map File.data

def readText (t : FileTree) (path : String) : Except Failure String := do
  match Text.decode? (← t.read path) with
  | some s => pure (String.ofList (Text.unifyBreaks s.toList))
  | none => throw .notUtf8

def isFile (t : FileTree) (path : String) : Bool :=
  match t.locate path with
  | .ok place => t.hasFile place
  | .error _ => false

def isExecutable (t : FileTree) (path : String) : Bool :=
  match t.file path with
  | .ok f => f.executable
  | .error _ => false

def hasPath (t : FileTree) (path : String) : Bool :=
  match t.locate path with
  | .ok place => t.hasFile place || t.hasDirectory place
  | .error _ => false

def absolute (t : FileTree) (path : String) : String :=
  Path.normalize (Path.join ("/" ++ "/".intercalate t.current) path)

/-! ## Changes -/

def append (t : FileTree) (path : String) (data : Bytes) : Except Failure FileTree := do
  let place ← t.locate path
  if t.hasDirectory place then throw (.file (.isDirectory path))
  match t.files.get? place with
  | some f => pure { t with files := t.files.insert place { f with data := f.data ++ data } }
  | none => pure { t with files := t.files.insert place { data } }

def bareComponents (path : String) : List String :=
  Path.components (String.ofList (path.toList.reverse.dropWhile (· = '/')).reverse)

/-- Writes the file at a path, which is made if its directory is there. A path with a slash at its
end names a directory. -/
def write (t : FileTree) (path : String) (data : Bytes) : Except Failure FileTree := do
  checkPath path
  let place ← t.follow path (bareComponents path)
  if t.hasDirectory place || path.endsWith "/" then throw (.file (.isDirectory path))
  match t.files.get? place with
  | some f => pure { t with files := t.files.insert place { f with data } }
  | none => pure { t with files := t.files.insert place { data } }

def makeDirectories (t : FileTree) (path : String) : Except Failure FileTree := do
  checkPath path
  (Path.components path).foldlM (fun (acc : FileTree × List String) comp => do
      let (t, place) := acc
      match t.step path place comp with
      | .error e => throw (Failure.file e)
      | .ok next =>
        if t.hasDirectory next then pure (t, next)
        else if t.hasFile next then pure (t, next)
        else pure ({ t with directories := t.directories ++ [next] }, next)) (t, t.start path)
    >>= fun (t, place) => if t.hasFile place then throw (.file (.alreadyThere path)) else pure t

/-- Removes all below a directory and then the directory itself: the tree, and why the directory
could not be removed. The path is followed twice, so a directory that the path leads through below
itself is emptied only. -/
def removeDirectory (t : FileTree) (path : String) : FileTree × Except Failure Unit :=
  match t.locate path with
  | .error e => (t, .error e)
  | .ok place =>
    if t.hasFile place then (t, .error (.file (.notDirectory path)))
    else
      let emptied := { t with
        files := t.files.filter fun f _ => !place.isPrefixOf f
        directories := (t.directories.filter fun d => !place.isPrefixOf d) ++ [place] }
      match emptied.locate path with
      | .error e => (emptied, .error e)
      | .ok _ => ({ emptied with
          directories := (emptied.directories.filter fun d => d ≠ place) ++ [place.dropLast] },
          .ok ())

/-- The files with their paths from the current directory, by path; files elsewhere are left out. -/
def listing (t : FileTree) : List (String × File) :=
  (t.files.entries.filterMap fun e =>
    if t.current.isPrefixOf e.1 then some ("/".intercalate (e.1.drop t.current.length), e.2)
    else none).mergeSort
      fun a b => a.1 ≤ b.1

end FileTree

end CallAtlas
