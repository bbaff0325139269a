import CallAtlas.Path

/-!
# Moved source trees

A map from old to new places, for databases that were made elsewhere. Of several entries that fit,
the one whose old place is spelled longest wins.
-/

namespace CallAtlas.Compile

/-- Old places with new ones, the longest first. -/
structure PathMap where
  entries : List (String × String) := []
  deriving DecidableEq, Repr

namespace PathMap

def ofList (es : List (String × String)) : PathMap :=
  ⟨es.mergeSort fun a b => b.1.length ≤ a.1.length⟩

def dropSlashes (s : String) : String :=
  String.ofList ((s.toList.reverse.dropWhile (· = '/')).reverse)

/-- Whether a path in normal form is an old place, also in normal form, or lies below it. -/
def covers (old path : String) : Bool := path = old || path.startsWith (dropSlashes old ++ "/")

/-- Moves a path that an old place covers. -/
def move (m : PathMap) (path : String) : String :=
  match m.entries.find? fun e => covers (Path.normalize e.1) path with
  | some (old, new) =>
    Path.normalize (new ++ String.ofList (path.toList.drop (Path.normalize old).length))
  | none => path

/-- The normal form of a path seen from a directory; an empty directory is none. -/
def joined (path directory : String) : String :=
  if directory.isEmpty then Path.normalize path else Path.normalize (Path.join directory path)

def normalize (m : PathMap) (path directory : String) : String := m.move (joined path directory)

end PathMap

end CallAtlas.Compile
