import CallAtlas.Container.ElfTags
import CallAtlas.Container.Embedded
import CallAtlas.Text.Replace

/-!
# What binaries need

The needs of a binary are read from the dynamic tags of ELF files, or looked up by file name in
tables.
-/

namespace CallAtlas.Loader

open Container

/-- What binaries need, and where they look for it. -/
structure Needs where
  needed : Binary → List String
  searchPaths : Binary → List String
  refuses : Binary → Option Failure := fun _ => none

/-- Puts the directory of the binary for `$ORIGIN`. -/
def expandOrigin (origin : String) (entry : List Char) : String :=
  String.ofList (Text.replaceAll "$ORIGIN".toList origin.toList
    (Text.replaceAll "$\x7bORIGIN\x7d".toList origin.toList entry))

def splitSearchPath (origin path : String) : List String :=
  ((Path.splitAt ':' path.toList).filter (· ≠ [])).map (expandOrigin origin)

def readTags (files : FileTree) (b : Binary) : Elf.TagList :=
  if b.format = .elf then
    match files.read b.path with
    | .ok data => Elf.readTags data
    | .error _ => ([], some .unreadable)
  else ([], none)

/-- The failure that an error in reading tags leads to. A file that breaks the rules of its format
leads to none: the tags before count. -/
def tagFailure? : Elf.ReadError → Option Failure
  | .noTexts => some .noTexts
  | .tooFar => some (.invalid "cannot fit 'int' into an offset-sized integer")
  | .unreadable | .corrupt => none

def dynamicTags (files : FileTree) (b : Binary) : List (Elf.Tag × String) := (readTags files b).1

def tagTexts (tag : Elf.Tag) (tags : List (Elf.Tag × String)) : List String :=
  (tags.filter fun t => t.1 = tag).map Prod.snd

def tagPaths (origin : String) (tag : Elf.Tag) (tags : List (Elf.Tag × String)) : List String :=
  (tagTexts tag tags).flatMap (splitSearchPath origin)

/-- The needs by dynamic tags. Of the two search paths, the later kind wins if it names any
directory. -/
def Needs.ofElf (files : FileTree) : Needs where
  needed b := tagTexts .needed (dynamicTags files b)
  searchPaths b :=
    let tags := dynamicTags files b
    let origin := Path.directoryName (files.absolute b.path)
    match tagPaths origin .runpath tags with
    | [] => tagPaths origin .rpath tags
    | ds => ds
  refuses b := (readTags files b).2.bind tagFailure?

def Needs.ofTables (needed searchPaths : Table String (List String)) : Needs where
  needed b := (needed.get? b.name).getD []
  searchPaths b := (searchPaths.get? b.name).getD []

end CallAtlas.Loader
