import CallAtlas.Container.Format
import CallAtlas.Fault
import CallAtlas.Text.Utf8

/-!
# Static archives

A sequence of members, each with a header of 60 bytes. Longer names stand in a table of names, or
before the data of their member. The reader goes on by the size that each header states, which may
be negative.
-/

namespace CallAtlas.Container.Archive

open Text

def thinMagic : Bytes := Bytes.ofAscii "!<thin>\n"

def headerSize : Nat := 60

def symbolTables : List String := ["/", "/SYM64/", "__.SYMDEF", "__.SYMDEF SORTED", "__.SYMDEF_64"]

/-- A member with its name, the place of its data and the data. -/
structure Member where
  name : String
  offset : Int
  data : Bytes
  deriving DecidableEq, Repr

/-- Where the reader stands, and the table of long names so far. -/
structure Cursor where
  pos : Int
  longNames : Bytes

/-- What stands at a cursor. -/
inductive Found where
  | member (m : Member)
  | table
  deriving DecidableEq, Repr

structure Header where
  name : String
  size : Int
  deriving DecidableEq, Repr

def dropTrailing (c : Char) (s : String) : String :=
  String.ofList ((s.toList.reverse.dropWhile (· = c)).reverse)

def malformed (archive reason : String) (offset : Option Int) : Failure :=
  .fault ⟨.malformed reason offset, if archive.isEmpty then none else some archive, true⟩

/-- The name and the size that a header states. -/
def readHeader (archive : String) (pos : Int) (header : Bytes) : Except Failure Header :=
  if header.slice 58 60 ≠ [0x60, 0x0A]
    then .error (malformed archive "bad archive member header" (some pos))
  else
    let name := dropTrailing ' ' (decodeAscii (header.slice 0 16))
    let size := (decodeAscii? (header.slice 48 58)).bind fun s =>
      match trim s.toList with
      | [] => some 0
      | ds => readInt? ds
    match size with
    | none => .error (malformed archive "bad archive member size" (some pos))
    | some size => .ok ⟨name, size⟩

/-- The name at a place in the table of names: up to the end of its line, without slashes at its
end. -/
def longName (table : Bytes) (index : Nat) : String :=
  dropTrailing '/' (decode ((table.drop index).takeWhile (· ≠ 0x0A)))

/-- The member of a name field and a body. -/
def placeMember (longNames : Bytes) (rawName : String) (start : Int) (body : Bytes) :
    Except Failure Member :=
  match rawName.toList with
  | '#' :: '1' :: '/' :: ds =>
    match readInt? ds with
    | none => .error .notInteger
    | some n =>
      let raw := body.slice 0 n
      let name := decode (raw.reverse.dropWhile (· = 0)).reverse
      .ok ⟨name, start + n, body.slice n body.length⟩
  | '/' :: ds =>
    if ds ≠ [] ∧ ds.all isAsciiDigit then .ok ⟨longName longNames (digitsValue ds), start, body⟩
    else if ds ≠ [] ∧
      ds.getLast? = some '/' then .ok ⟨String.ofList ('/' :: ds.dropLast), start, body⟩
    else .ok ⟨rawName, start, body⟩
  | cs =>
    if cs.getLast? = some '/' then .ok ⟨String.ofList cs.dropLast, start, body⟩
    else .ok ⟨rawName, start, body⟩

/-- Reads the header at a cursor, and what it announces. -/
def next (archive : String) (data : Bytes) (c : Cursor) : Except Failure (Cursor × Found) := do
  let header ← readHeader archive c.pos (data.slice c.pos (c.pos + headerSize))
  let start := c.pos + headerSize
  let stop := start + header.size
  if (data.length : Int) < stop then
    throw (malformed archive ("archive member '" ++ header.name ++ "' is truncated") (some c.pos))
  let body := data.slice start stop
  let pos := stop + header.size.emod 2
  if header.name = "//" then pure (⟨pos, body⟩, .table)
  else
    let m ← placeMember c.longNames header.name start body
    if symbolTables.contains m.name || symbolTables.contains header.name then
      pure (⟨pos, c.longNames⟩, .table)
    else pure (⟨pos, c.longNames⟩, .member m)

/-- How the reading of an archive ends. -/
inductive Ending where
  | complete
  | failed (e : Failure)
  /-- The reader comes to headers again that it has read before, and goes on forever. -/
  | endless
  deriving DecidableEq, Repr

/-- The members from a cursor on, and how the reading ends. The count bounds the headers. -/
def readFrom (archive : String) (data : Bytes) : Nat → Cursor → List Member × Ending
  | 0, _ => ([], .endless)
  | fuel + 1, c =>
    if (data.length : Int) < c.pos + headerSize then ([], .complete)
    else match next archive data c with
      | .error e => ([], .failed e)
      | .ok (c, .table) => readFrom archive data fuel c
      | .ok (c, .member m) =>
        let (ms, e) := readFrom archive data fuel c
        (m :: ms, e)

/-- More headers than can be read at different positions: a position counts from either end. -/
def headerBound (data : Bytes) : Nat := 2 * data.length + 1

def Cursor.first : Cursor := ⟨archiveMagic.length, []⟩

/-- The members of an archive in order, and how their reading ends. A reading that never ends shows
its first members. -/
def read (data : Bytes) (archive : String) : List Member × Ending :=
  if data.startsWith thinMagic
    then ([], .failed (malformed archive "thin archives are not supported" none))
  else if !data.startsWith archiveMagic
    then ([], .failed (malformed archive "not an ar archive" none))
  else readFrom archive data (headerBound data) .first

/-! ## Building -/

def fill (width : Nat) (s : String) : Bytes :=
  let s := s.toList
  Bytes.ofText (String.ofList (s ++ List.replicate (width - s.length) ' '))

def buildHeader (name : String) (size : Nat) : Bytes :=
  fill 16 name ++ fill 12 "0" ++ fill 6 "0" ++ fill 6 "0" ++ fill 8 "644" ++
    fill 10 (toString size) ++ [0x60, 0x0A]

/-- A member with its header, filled up to an even size. -/
def buildMember (name : String) (data : Bytes) : Bytes :=
  buildHeader name data.length ++ data ++ if data.length % 2 = 1 then [0x0A] else []

/-- What stands for names in headers: long ones go to a table. -/
def shortNames : List String → Bytes → List String × Bytes
  | [], table => ([], table)
  | name :: r, table =>
    if 15 < name.length then
      let (names, out) := shortNames r (table ++ Bytes.ofText name ++ [0x2F, 0x0A])
      (("/" ++ toString table.length) :: names, out)
    else
      let (names, out) := shortNames r table
      ((name ++ "/") :: names, out)

/-- An archive with its long names in a table, or, if `inData` holds, with all names before the
data. -/
def build (members : List (String × Bytes)) (inData : Bool) : Bytes :=
  archiveMagic ++
  if inData then
    buildMember "__.SYMDEF" (Bytes.zeros 8) ++ members.flatMap fun m =>
      let raw := Bytes.ofText m.1
      buildMember ("#1/" ++ toString raw.length) (raw ++ m.2)
  else
    let (names, table) := shortNames (members.map Prod.fst) []
    buildMember "/" (Bytes.zeros 4) ++ (if table.isEmpty then [] else buildMember "//" table) ++
      (names.zip members).flatMap fun p => buildMember p.1 p.2.2

end CallAtlas.Container.Archive
