import CallAtlas.Container.Archive
import CallAtlas.Container.Elf
import CallAtlas.Tool.Toolchain

/-!
# Embedded modules

A binary carries its modules in a section of its own. Sections of ELF files and archives are read
here; those of other formats are copied out by an external tool.
-/

namespace CallAtlas.Container

open Tool

/-- A file with its format. -/
structure Binary where
  path : String
  format : Format := .unknown
  deriving DecidableEq, Repr

namespace Binary

def ofPath (files : FileTree) (path : String) : Except Failure Binary := do
  let path := Path.tidy path
  let data ← files.read path
  pure ⟨path, .detect (data.take headSize)⟩

def name (b : Binary) : String := Path.name b.path

end Binary

/-- A section with modules, and where it was found. -/
structure Embedded where
  name : String
  offset : Int
  data : Bytes
  binary : String
  member : Option String := none
  deriving DecidableEq, Repr

/-- A binary, with the member of the archive if there is one. -/
def originOf (binary : String) (member : Option String) : String :=
  match member with
  | some m => if m.isEmpty then binary else binary ++ "(" ++ m ++ ")"
  | none => binary

namespace Embedded

def origin (s : Embedded) : String := originOf s.binary s.member

def sectionName : String := ".llvmbc"

def machoSectionName : String := "__LLVM,__bitcode"

def bareName : String := "<bitcode>"

def notFound (reason binary : String) : Failure := .fault ⟨.noSection reason, some binary, true⟩

def ofElf (data : Bytes) (path : String) (member : Option String) :
    Except Failure (List Embedded) :=
  match Elf.load data sectionName with
  | .ok none => .ok []
  | .ok (some (offset, data)) => .ok [⟨sectionName, offset, data, path, member⟩]
  | .error .unreadable => .error (notFound "unreadable ELF" (originOf path member))
  | .error .tooFar => .error .tooFar
  | .error .noTexts => .error .noTexts
  | .error .corrupt => .error .corrupt

def ofMember (path : String) (m : Archive.Member) : Except Failure (List Embedded) :=
  match Format.detect (m.data.take headSize) with
  | .elf => ofElf m.data path (some m.name)
  | .bitcode => .ok [⟨bareName, m.offset, m.data, path, some m.name⟩]
  | _ => .ok []

/-- The sections of all members. -/
def ofArchive (data : Bytes) (path : String) : Except Failure (List Embedded) := do
  let (members, ending) := Archive.read data path
  let sections ← members.mapM (ofMember path)
  match ending with
  | .complete => pure sections.flatten
  | .failed e => throw e
  | .endless => throw .endless

/-- A section copied out by an external tool. -/
def ofCopy (host : Host) (tools : Toolchain) (path name : String) :
    Except Failure (List Embedded) := do
  let target := Path.join host.scratch "section.bin"
  let r ← tools.run host copyTool
    ["--dump-section=" ++ name ++ "=" ++ target, path, Path.join host.scratch "scratch.o"] none
  match r.written with
  | some data => pure (if r.code = 0 then [⟨name, 0, data, path, none⟩] else [])
  | none => pure []

/-- The sections with modules, by the format of the file. -/
def sections (host : Host) (tools : Toolchain) (b : Binary) (data : Bytes) :
    Except Failure (List Embedded) :=
  match if b.format = .unknown then Format.detect (data.take headSize) else b.format with
  | .elf => ofElf data b.path none
  | .archive => ofArchive data b.path
  | .bitcode => .ok [⟨bareName, 0, data, b.path, none⟩]
  | .macho => ofCopy host tools b.path machoSectionName
  | .coff => ofCopy host tools b.path sectionName
  | .unknown => .error (notFound "unrecognized container format" b.path)

/-- The sections with modules; at least one is there. -/
def extract (host : Host) (tools : Toolchain) (b : Binary) : Except Failure (List Embedded) := do
  let data ← host.files.read (Path.tidy b.path)
  match ← sections host tools b data with
  | [] => throw (notFound "no embedded bitcode section" b.path)
  | ss => pure ss

end Embedded

end CallAtlas.Container
