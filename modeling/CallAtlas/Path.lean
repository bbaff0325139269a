import CallAtlas.Text.Blank

/-!
# Paths

Slash-separated paths, by spelling alone. Exactly two slashes at the start are kept in a normal
form; three or more count as one.
-/

namespace CallAtlas.Path

/-- The parts of a text between the places where `sep` stands; an empty text has one empty part. -/
def splitAt (sep : Char) : List Char → List (List Char)
  | [] => [[]]
  | c :: r =>
    match splitAt sep r with
    | [] => [[c]]
    | p :: ps => if c = sep then [] :: p :: ps else (c :: p) :: ps

def components (path : String) : List String := (splitAt '/' path.toList).map String.ofList

def isAbsolute (path : String) : Bool := path.startsWith "/"

def root (path : String) : String :=
  if path.startsWith "//" && !path.startsWith "///" then "//"
  else if path.startsWith "/" then "/"
  else ""

/-- Adds a component to normal components, kept backwards: an empty one or a dot adds nothing, and
two dots take the last component back unless there is none to take. -/
def addComponent (absolute : Bool) (acc : List String) (comp : String) : List String :=
  if comp = "" ∨ comp = "." then acc
  else if comp ≠ ".." then comp :: acc
  else match acc with
    | [] => if absolute then [] else [comp]
    | last :: r => if last = ".." then comp :: acc else r

def normalComponents (path : String) : List String :=
  ((components path).foldl (addComponent (isAbsolute path)) []).reverse

/-- The normal form: no empty component, no dot, and two dots only at the start. -/
def normalize (path : String) : String :=
  let p := root path ++ "/".intercalate (normalComponents path)
  if p.isEmpty then "." else p

/-- A path seen from a directory. -/
def join (directory path : String) : String :=
  if path.startsWith "/" then path
  else if directory.isEmpty || directory.endsWith "/" then directory ++ path
  else directory ++ "/" ++ path

def baseName (path : String) : String := (components path).getLastD ""

/-- The characters before the last slash, without slashes at their end unless they are nothing
else. -/
def directoryName (path : String) : String :=
  let head := ((path.toList.reverse.dropWhile (· ≠ '/')).reverse)
  if head.all (· = '/') then String.ofList head
  else String.ofList ((head.reverse.dropWhile (· = '/')).reverse)

/-- The extension of the last component with its dot; dots at its start begin no extension. -/
def extension (path : String) : String :=
  let name := (baseName path).toList.dropWhile (· = '.')
  match (name.reverse.dropWhile (· ≠ '.')) with
  | [] => ""
  | _ :: _ => String.ofList ('.' :: (name.reverse.takeWhile (· ≠ '.')).reverse)

/-- A path without empty components and dots. -/
def tidy (path : String) : String :=
  let p := root path ++ "/".intercalate ((components path).filter fun c => c ≠ "" && c ≠ ".")
  if p.isEmpty then "." else p

def name (path : String) : String :=
  ((components path).filter fun c => c ≠ "" && c ≠ ".").getLastD ""

end CallAtlas.Path
