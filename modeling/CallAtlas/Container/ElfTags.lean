import CallAtlas.Container.Elf

/-!
# Dynamic tags of ELF files

A dynamic section is a list of tags up to a closing one, read up to the first place that cannot be
read.
-/

namespace CallAtlas.Container.Elf

/-- The dynamic tags that hold a text. -/
inductive Tag where
  | needed
  | soname
  | rpath
  | runpath
  /-- A library that this one stands in front of. -/
  | filtered
  deriving DecidableEq, Repr

def taggedSystem : Nat := 6

def taggedMachines : List Nat := [8, 10, 183]

def File.tag? (f : File) (n : Nat) : Option Tag :=
  if n = 1 then some .needed
  else if n = 14 then some .soname
  else if n = 15 then some .rpath
  else if n = 29 then some .runpath
  else if n = 0x6000000F ∧ f.system = taggedSystem ∧
    !taggedMachines.contains f.machine then some .filtered
  else none

abbrev TagList := List (Tag × String) × Option ReadError

def File.tagText (f : File) (texts : Section) (value : Nat) : Except ReadError String :=
  if texts.type ≠ typeStrtab then .error .noTexts else f.textAt (texts.offset + value)

def tagsFrom (f : File) (texts : Section) : Nat → Nat → TagList
  | 0, _ => ([], some .unreadable)
  | fuel + 1, pos =>
    let width := f.wordSize
    if reach ≤ pos then ([], some .tooFar)
    else if f.data.length < pos + 2 * width then ([], some .unreadable)
    else
      let tag := number f.big f.data pos width
      let value := number f.big f.data (pos + width) width
      if tag = 0 then ([], none)
      else match f.tag? tag with
        | none => tagsFrom f texts fuel (pos + 2 * width)
        | some t =>
          match f.tagText texts value with
          | .error e => ([], some e)
          | .ok text =>
            let (rest, e) := tagsFrom f texts fuel (pos + 2 * width)
            ((t, text) :: rest, e)

/-- The tags of a dynamic section. -/
def File.tagsOf (f : File) (s : Section) : TagList :=
  if s.type = typeDynamic then
    match f.header s.link with
    | .ok texts => tagsFrom f texts (f.data.length + 1) s.offset
    | .error e => ([], some e)
  else ([], none)

def File.tagsOfAll (f : File) : List Section → TagList
  | [] => ([], none)
  | s :: r =>
    match f.tagsOf s with
    | (tags, none) =>
      let (rest, e) := f.tagsOfAll r
      (tags ++ rest, e)
    | (tags, some e) => (tags, some e)

/-- The texts of the dynamic tags of a file. -/
def readTags (data : Bytes) : TagList :=
  match openFile data with
  | .error e => ([], some e)
  | .ok f =>
    let (sections, stop) := f.visitAll
    match f.tagsOfAll (sections.map Prod.fst) with
    | (tags, none) => (tags, stop)
    | (tags, some e) => (tags, some e)

end CallAtlas.Container.Elf
