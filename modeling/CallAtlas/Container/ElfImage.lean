import CallAtlas.Container.Elf

/-!
# Building ELF files

Minimal shared objects: given sections, and dynamic tags where libraries are needed or search paths
are set.
-/

namespace CallAtlas.Container.Elf

/-- A small ELF file: sections, needed names and search paths. -/
structure Image where
  sections : List (String × Bytes) := []
  needed : List String := []
  /-- The search path behind the environment's; empty for none. -/
  runpath : String := ""
  /-- The search path before the environment's; empty for none. -/
  rpath : String := ""

structure Part where
  name : String
  type : Nat
  data : Bytes
  link : Nat := 0
  entry : Nat := 0

/-- Texts behind each other, each closed by a zero byte, behind a table: the table and the place of
each. -/
def placeTexts : Bytes → List String → Bytes × List Nat
  | table, [] => (table, [])
  | table, s :: r =>
    let (out, places) := placeTexts (table ++ Bytes.ofText s ++ [0]) r
    (out, table.length :: places)

namespace Image

def tags (i : Image) : List (Nat × String) :=
  i.needed.map (fun s => (1, s)) ++ (if i.runpath.isEmpty then [] else [(29, i.runpath)]) ++
    (if i.rpath.isEmpty then [] else [(15, i.rpath)])

/-- The sections that dynamic tags need, if there are any; `index` is the number of the first. -/
def dynamicParts (i : Image) (index : Nat) : List Part :=
  if i.tags.isEmpty then []
  else
    let (table, places) := placeTexts [0] (i.tags.map Prod.snd)
    let entries := (i.tags.zip places).flatMap fun p => Bytes.ofNat 8 p.1.1 ++ Bytes.ofNat 8 p.2
    [{ name := ".dynstr", type := typeStrtab, data := table },
     { name := ".dynamic", type := typeDynamic, data := entries ++ Bytes.zeros 16, link := index,
       entry := 16 }]

def parts (i : Image) : List Part :=
  i.sections.map (fun s => { name := s.1, type := typeProgbits, data := s.2 }) ++
    i.dynamicParts (i.sections.length + 1)

/-- Lays data out from a byte on, each at a multiple of 8: the bytes, the place of each, and the
byte behind. -/
def layout : Nat → List Bytes → Bytes × List Nat × Nat
  | pos, [] => ([], [], pos)
  | pos, data :: r =>
    let pad := Bytes.padding pos 8
    let (body, places, stop) := layout (pos + pad + data.length) r
    (Bytes.zeros pad ++ data ++ body, (pos + pad) :: places, stop)

def sectionHeader (p : Part) (offset name : Nat) : Bytes :=
  Bytes.ofNat 4 name ++ Bytes.ofNat 4 p.type ++ Bytes.ofNat 8 0 ++ Bytes.ofNat 8 0 ++
    Bytes.ofNat 8 offset ++
    Bytes.ofNat 8 p.data.length ++ Bytes.ofNat 4 p.link ++ Bytes.ofNat 4 0 ++
    Bytes.ofNat 8 (if p.entry = 0 then 1 else 8) ++ Bytes.ofNat 8 p.entry

def fileHeader (sectionOffset count : Nat) : Bytes :=
  elfMagic ++ [2, 1, 1, 0] ++ Bytes.zeros 8 ++ Bytes.ofNat 2 3 ++ Bytes.ofNat 2 62 ++
    Bytes.ofNat 4 1 ++
    Bytes.ofNat 8 0 ++ Bytes.ofNat 8 0 ++ Bytes.ofNat 8 sectionOffset ++ Bytes.ofNat 4 0 ++
    Bytes.ofNat 2 64 ++
    Bytes.ofNat 2 56 ++ Bytes.ofNat 2 0 ++ Bytes.ofNat 2 64 ++ Bytes.ofNat 2 (count + 1) ++
    Bytes.ofNat 2 count

def bytes (i : Image) : Bytes :=
  let (table, names) := placeTexts [0] (i.parts.map Part.name ++ [".shstrtab"])
  let parts := i.parts ++ [{ name := ".shstrtab", type := typeStrtab, data := table }]
  let (body, places, stop) := layout 64 (parts.map Part.data)
  let pad := Bytes.padding stop 8
  let headers := (parts.zip (places.zip names)).flatMap fun p => sectionHeader p.1 p.2.1 p.2.2
  fileHeader (stop + pad) parts.length ++ body ++ Bytes.zeros pad ++ Bytes.zeros 64 ++ headers

end Image

end CallAtlas.Container.Elf
