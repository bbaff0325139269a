import CallAtlas.Ir.Instruction
import CallAtlas.Ir.Linkage

/-!
# Symbols

Functions and global values keep their text, from which the rest is read.
-/

namespace CallAtlas.Ir

open Text

/-- A block with its label and instructions. -/
structure Block where
  label : String
  instructions : List Instruction
  /-- The line that opens the block; an entry block may have none. -/
  labelLine : Option String
  deriving DecidableEq, Repr, Inhabited

def Block.lines (b : Block) : List String :=
  b.labelLine.toList ++ b.instructions.map Instruction.text

/-- A function with its header line and blocks. -/
structure Function where
  name : String
  /-- The line up to the opening brace, or the whole declaration. -/
  header : String
  blocks : List Block
  deriving DecidableEq, Repr, Inhabited

namespace Function

def isDeclaration (f : Function) : Bool := f.header.startsWith "declare"

def keyword (f : Function) : String := if f.isDeclaration then "declare" else "define"

/-- The header behind its first keyword. -/
def segment (f : Function) : String :=
  String.ofList (trimLeft (f.header.toList.drop f.keyword.length))

def linkage (f : Function) : Linkage := .ofKeywords (splitKeywords f.segment).1

def setLinkage (f : Function) (keyword : String) : Function :=
  { f with header := f.keyword ++ " " ++ withLinkage f.segment keyword }

def debug (f : Function) : Option Nat := debugRef? f.header.toList

def comdat (f : Function) : Option String := comdatOf f.header f.name

def dropComdat (f : Function) : Function :=
  { f with header := String.ofList (joinSpaces (eraseComdat none f.header.toList)) }

def instructions (f : Function) : List Instruction := f.blocks.flatMap Block.instructions

/-- The names in the header and the instructions but its own. -/
def references (f : Function) : List String :=
  ((globalRefs f.header ++ f.instructions.flatMap fun i => globalRefs i.text).eraseDups).filter
    (· ≠ f.name)

def mapText (t : String → String) (f : Function) : Function :=
  { f with
    header := t f.header
    blocks := f.blocks.map fun b =>
    { b with instructions := b.instructions.map fun i => ⟨t i.text⟩ } }

def lines (f : Function) : List String :=
  if f.isDeclaration then [f.header] else f.header :: f.blocks.flatMap Block.lines ++ ["\x7d"]

end Function

/-- A variable, constant, alias or ifunc: its name and what follows the equals sign. -/
structure Global where
  name : String
  segment : String
  deriving DecidableEq, Repr, Inhabited

namespace Global

def kindWords : List String := ["global", "constant", "alias", "ifunc"]

def kind (g : Global) : String :=
  (((words (splitKeywords g.segment).2.toList).map String.ofList).find? kindWords.contains).getD
    "global"

def linkage (g : Global) : Linkage := .ofKeywords (splitKeywords g.segment).1

def setLinkage (g : Global) (keyword : String) : Global :=
  { g with segment := withLinkage g.segment keyword }

/-- Whether the value is defined elsewhere: only declarations of variables write an external
linkage. -/
def isDeclaration (g : Global) : Bool :=
  let keywords := (splitKeywords g.segment).1
  (g.kind = "global" || g.kind = "constant") &&
    (keywords.contains Linkage.external.keyword || keywords.contains Linkage.externWeak.keyword)

def comdat (g : Global) : Option String := comdatOf g.segment g.name

def dropComdat (g : Global) : Global :=
  { g with segment := String.ofList (eraseComdatClause g.segment.toList) }

def references (g : Global) : List String := (globalRefs g.segment).filter (· ≠ g.name)

def mapText (t : String → String) (g : Global) : Global := { g with segment := t g.segment }

def line (g : Global) : String := quoteName g.name "@" ++ " = " ++ g.segment

end Global

/-- A function or a global. -/
inductive Symbol where
  | function (f : Function)
  | global (g : Global)
  deriving DecidableEq, Repr

namespace Symbol

def name : Symbol → String
  | .function f => f.name
  | .global g => g.name

def linkage : Symbol → Linkage
  | .function f => f.linkage
  | .global g => g.linkage

def isDeclaration : Symbol → Bool
  | .function f => f.isDeclaration
  | .global g => g.isDeclaration

def isLocal (s : Symbol) : Bool := s.linkage.isLocal

def comdat : Symbol → Option String
  | .function f => f.comdat
  | .global g => g.comdat

def references : Symbol → List String
  | .function f => f.references
  | .global g => g.references

def setLinkage (keyword : String) : Symbol → Symbol
  | .function f => .function (f.setLinkage keyword)
  | .global g => .global (g.setLinkage keyword)

def dropComdat : Symbol → Symbol
  | .function f => .function f.dropComdat
  | .global g => .global g.dropComdat

end Symbol

end CallAtlas.Ir
