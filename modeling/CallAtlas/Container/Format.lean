import CallAtlas.Bitcode.Stream

/-! # Container formats -/

namespace CallAtlas.Container

/-- The containers that are told apart. -/
inductive Format where
  | elf
  | macho
  | coff
  | archive
  | bitcode
  | unknown
  deriving DecidableEq, Repr, Inhabited

def Format.all : List Format := [.elf, .macho, .coff, .archive, .bitcode, .unknown]

def Format.name : Format → String
  | .elf => "elf"
  | .macho => "macho"
  | .coff => "coff"
  | .archive => "archive"
  | .bitcode => "bitcode"
  | .unknown => "unknown"

def Format.ofName? (name : String) : Option Format := Format.all.find? fun f => f.name = name

def elfMagic : Bytes := [0x7F, 0x45, 0x4C, 0x46]

def archiveMagic : Bytes := Bytes.ofAscii "!<arch>\n"

def machoMagics : List Bytes :=
  [[0xFE, 0xED, 0xFA, 0xCE], [0xCE, 0xFA, 0xED, 0xFE], [0xFE, 0xED, 0xFA, 0xCF],
    [0xCF, 0xFA, 0xED, 0xFE],
   [0xCA, 0xFE, 0xBA, 0xBE], [0xBE, 0xBA, 0xFE, 0xCA]]

def coffMachines : List Nat := [0x014C, 0x8664, 0x01C4, 0xAA64]

/-- The format that the first bytes of a file show. -/
def Format.detect (head : Bytes) : Format :=
  if head.startsWith elfMagic then .elf
  else if head.startsWith archiveMagic then .archive
  else if head.startsWith Bitcode.magic || head.startsWith Bitcode.wrapperMagic then .bitcode
  else if machoMagics.contains (head.take 4) then .macho
  else if head.startsWith (Bytes.ofAscii "MZ") then .coff
  else if 2 ≤ head.length && coffMachines.contains (Bytes.littleEndian (head.take 2)) then .coff
  else .unknown

def headSize : Nat := 16

end CallAtlas.Container
