import CallAtlas.Container.Format
import CallAtlas.Deflate.Stream
import CallAtlas.Table
import CallAtlas.Text.Utf8

/-!
# ELF files

As much of the format as names sections and gives their data. Sections are visited in order, and one
can be found by name only if all can be visited.
-/

namespace CallAtlas.Container.Elf

def typeNull : Nat := 0

def typeProgbits : Nat := 1

def typeSymtab : Nat := 2

def typeStrtab : Nat := 3

def typeDynamic : Nat := 6

def typeNobits : Nat := 8

def typeDynsym : Nat := 11

/-- Why a file cannot be read as ELF. -/
inductive ReadError where
  | unreadable
  | tooFar
  | noTexts
  | corrupt
  deriving DecidableEq, Repr

/-- What can be addressed lies below. -/
def reach : Nat := Nat.pow 2 63

/-- A place or a length must be one that can be addressed. -/
def within (n : Nat) : Except ReadError Unit := if n < reach then .ok () else .error .tooFar

/-- A rule of the format. -/
def rule (holds : Bool) : Except ReadError Unit := if holds then .ok () else .error .unreadable

/-- The bytes of a file, and what its header says of them. -/
structure File where
  data : Bytes
  wide : Bool
  big : Bool
  system : Nat
  machine : Nat
  sectionOffset : Nat
  entrySize : Nat
  statedCount : Nat
  statedNames : Nat

/-- A section header. -/
structure Section where
  name : Nat
  type : Nat
  flags : Nat
  offset : Nat
  size : Nat
  link : Nat
  entry : Nat
  deriving DecidableEq, Repr

def number (big : Bool) (data : Bytes) (pos width : Nat) : Nat :=
  let bytes := data.sub pos width
  if big then Bytes.bigEndian bytes else Bytes.littleEndian bytes

def openFile (data : Bytes) : Except ReadError File :=
  if !data.startsWith elfMagic then .error .unreadable
  else
    match data[4]?, data[5]? with
    | some cls, some order =>
      if (cls ≠ 1 ∧ cls ≠ 2) ∨ (order ≠ 1 ∧ order ≠ 2) then .error .unreadable
      else
        let wide := cls = 2
        let big := order = 2
        let num := number big data
        if data.length < (if wide then 64 else 52) then .error .unreadable
        else if wide then .ok ⟨data, wide, big, num 7 1, num 18 2, num 40 8, num 58 2, num 60 2,
          num 62 2⟩
        else .ok ⟨data, wide, big, num 7 1, num 18 2, num 32 4, num 46 2, num 48 2, num 50 2⟩
    | _, _ => .error .unreadable

namespace File

def wordSize (f : File) : Nat := if f.wide then 8 else 4

def headerSize (f : File) : Nat := if f.wide then 64 else 40

def headerPos (f : File) (n : Nat) : Except ReadError Nat :=
  if 0 < f.sectionOffset ∧ f.entrySize < f.headerSize then .error .unreadable
  else .ok (f.sectionOffset + n * f.entrySize)

/-- The section header at a position. -/
def headerAt (f : File) (pos : Nat) : Section :=
  let field := fun start width => number f.big f.data (pos + start) width
  if f.wide then ⟨field 0 4, field 4 4, field 8 8, field 24 8, field 32 8, field 40 4, field 56 8⟩
  else ⟨field 0 4, field 4 4, field 8 4, field 16 4, field 20 4, field 24 4, field 36 4⟩

/-- The section header of a number. -/
def header (f : File) (n : Nat) : Except ReadError Section := do
  let pos ← f.headerPos n
  rule (pos + f.headerSize ≤ f.data.length)
  pure (f.headerAt pos)

/-- The number of sections; a file that states none keeps it in its first header. -/
def count (f : File) : Except ReadError Nat :=
  if f.sectionOffset = 0 then .ok 0
  else if f.statedCount = 0 then (f.header 0).map Section.size
  else .ok f.statedCount

/-- The number of the section with the names of sections; it may be kept in the first header. -/
def namesIndex (f : File) : Except ReadError Nat :=
  if f.statedNames = 0xFFFF then (f.header 0).map Section.link else .ok f.statedNames

/-- The text at a position, up to a zero byte. -/
def textAt (f : File) (pos : Nat) : Except ReadError String := do
  within pos
  let rest := f.data.drop pos
  pure (if rest.contains 0 then Text.decode (rest.takeWhile (· ≠ 0)) else "")

/-! ## Compressed sections -/

/-- The head of compressed content. -/
structure Compression where
  method : Nat
  size : Nat

def compressionSize (f : File) : Nat := if f.wide then 24 else 12

def isCompressed (s : Section) : Bool := s.flags.testBit 11

/-- The head of a section that is compressed. -/
def compression (f : File) (s : Section) : Except ReadError (Option Compression) :=
  if isCompressed s then do
    within s.offset
    rule (s.offset + f.compressionSize ≤ f.data.length)
    let field := fun start width => number f.big f.data (s.offset + start) width
    pure (some (if f.wide then ⟨field 0 4, field 8 8⟩ else ⟨field 0 4, field 4 4⟩))
  else .ok none

def deflateMethod : Nat := 1

/-- The data of a section behind the head of compressed data. A section shorter than the head has
all that follows in the file. -/
def packed (f : File) (s : Section) : Except ReadError Bytes := do
  let rest := f.data.drop (s.offset + f.compressionSize)
  if s.size < f.compressionSize then pure rest
  else
    within (s.size - f.compressionSize)
    pure (rest.take (s.size - f.compressionSize))

/-- The content behind a compression head. -/
def expand (f : File) (s : Section) (c : Compression) : Except ReadError Bytes := do
  rule (c.method = deflateMethod)
  let data ← f.packed s
  within c.size
  match Deflate.expand (if c.size = 0 then none else some c.size) data with
  | none => throw .corrupt
  | some out =>
    rule (out.length = c.size)
    pure out

def content (f : File) (s : Section) : Except ReadError Bytes := do
  match ← f.compression s with
  | some c => f.expand s c
  | none =>
    within s.offset
    within s.size
    pure (f.data.sub s.offset s.size)

/-! ## Visits -/

/-- The header of the section with the names of sections, if it does not lie behind the end of the
file. -/
def names (f : File) : Except ReadError (Option Section) := do
  let n ← f.namesIndex
  let pos ← f.headerPos n
  if f.data.length < pos then pure none
  else
    let s ← f.header n
    let _ ← f.compression s
    pure (some s)

/-- What is looked at in passing a section, by its type. -/
inductive Kind where
  | plain
  | symbols
  | withTexts
  | withSymbols
  /-- A hash table over symbols: the numbers of buckets and of chain links, the buckets and the
  links. -/
  | hash
  /-- A hash table over symbols with a filter before its buckets. -/
  | filteredHash
  | entries (size : Nat)
  | dynamic
  /-- Properties of the code, behind the version of their form. -/
  | properties
  deriving DecidableEq, Repr

/-- The machines whose files may have sections with properties of the code. -/
def propertyMachines : List Nat := [40, 243]

def kindOf (f : File) (type : Nat) : Kind :=
  if type = typeSymtab ∨ type = typeDynsym ∨ type = 0x6FFFFFF3 then .symbols
  else if type = 4 then .entries (3 * f.wordSize)
  else if type = 9 then .entries (2 * f.wordSize)
  else if type = 19 then .entries f.wordSize
  else if type = 5 then .hash
  else if type = 0x6FFFFFF6 then .filteredHash
  else if type = 0x6FFFFFFD ∨ type = 0x6FFFFFFE then .withTexts
  else if type = 0x6FFFFFFC ∨ type = 0x6FFFFFFF then .withSymbols
  else if type = typeDynamic then .dynamic
  else if type = 0x70000003 ∧ propertyMachines.contains f.machine then .properties
  else .plain

def isTextType (type : Nat) : Bool := type = typeStrtab || type = typeNobits || type = typeNull

def isSymbolType (type : Nat) : Bool := type = typeSymtab || type = typeDynsym

def nameOf (f : File) (names s : Section) : Except ReadError String :=
  f.textAt (names.offset + s.name)

def visitPlain (f : File) (names s : Section) : Except ReadError Unit := do
  let _ ← f.nameOf names s
  let _ ← f.compression s

/-- Visits the linked section, which must be of a fitting type and ask for nothing. -/
def visitLinked (f : File) (names s : Section) (fits : Nat → Bool) : Except ReadError Unit := do
  let t ← f.header s.link
  rule (fits t.type)
  f.visitPlain names t

def checkSymbols (f : File) (names s : Section) : Except ReadError Unit := do
  f.visitLinked names s (· = typeStrtab)
  let _ ← f.compression s
  rule (0 < s.entry && s.size % s.entry = 0)

/-- The linked section must be a table of symbols. -/
def visitSymbols (f : File) (names s : Section) : Except ReadError Unit := do
  let t ← f.header s.link
  rule (isSymbolType t.type)
  let _ ← f.nameOf names t
  f.checkSymbols names t

def headNumbers (f : File) (s : Section) (length : Nat) : Except ReadError (Nat → Nat) := do
  within s.offset
  rule (s.offset + length ≤ f.data.length)
  pure fun start => number f.big f.data (s.offset + start) 4

/-- What has to hold of a section that is passed. -/
def check (f : File) (names s : Section) : Except ReadError Unit :=
  match f.kindOf s.type with
  | .plain => f.compression s *> pure ()
  | .symbols => f.checkSymbols names s
  | .withTexts => do
    f.visitLinked names s (· = typeStrtab)
    let _ ← f.compression s
  | .withSymbols => do
    f.visitSymbols names s
    let _ ← f.compression s
  | .hash => do
    f.visitSymbols names s
    let _ ← f.compression s
    let at4 ← f.headNumbers s 8
    rule (s.offset + 8 + 4 * (at4 0 + at4 4) ≤ f.data.length)
  | .filteredHash => do
    f.visitSymbols names s
    let _ ← f.compression s
    let at4 ← f.headNumbers s 16
    rule (s.offset + 16 + f.wordSize * at4 8 + 4 * at4 0 ≤ f.data.length)
  | .entries size => do
    let _ ← f.compression s
    rule (s.entry = size)
  | .dynamic => do
    let _ ← f.compression s
    f.visitLinked names s isTextType
  | .properties => do
    let _ ← f.compression s
    within s.offset
    rule (f.data[s.offset]? = some 0x41)

/-- The section of a number and its name. -/
def visit (f : File) (names : Option Section) (n : Nat) : Except ReadError (Section × String) := do
  let s ← f.header n
  match names with
  | none => throw .unreadable
  | some names =>
    let name ← f.nameOf names s
    f.check names s
    pure (s, name)

/-- Visits the sections from a number on, at most `fuel` of them, up to `count`: those visited, and
why no more could be. -/
def visitFrom (f : File) (names : Option Section) (count : Nat) :
    Nat → Nat → List (Section × String) × Option ReadError
  | 0, _ => ([], none)
  | fuel + 1, n =>
    if count ≤ n then ([], none)
    else match f.visit names n with
      | .error e => ([], some e)
      | .ok s =>
        let (rest, e) := visitFrom f names count fuel (n + 1)
        (s :: rest, e)

/-- All sections in order, up to one that cannot be read. -/
def visitAll (f : File) : List (Section × String) × Option ReadError :=
  match (do pure (← f.names, ← f.count) : Except ReadError _) with
  | .ok (names, count) => f.visitFrom names count (f.data.length + 1) 0
  | .error e => ([], some e)

/-- The last section of a name. -/
def find (f : File) (name : String) : Except ReadError (Option Section) :=
  match f.visitAll with
  | (sections, none) => .ok ((sections.filter fun s => s.2 = name).getLast?.map Prod.fst)
  | (_, some e) => .error e

end File

/-- Where the section of a name starts, and its content. -/
def load (data : Bytes) (name : String) : Except ReadError (Option (Nat × Bytes)) := do
  let f ← openFile data
  match ← f.find name with
  | none => pure none
  | some s => if s.type = typeNobits then pure none else pure (some (s.offset, ← f.content s))

end CallAtlas.Container.Elf
