import CallAtlas.Ir.Metadata
import CallAtlas.Ir.Symbol

/-! # Modules -/

namespace CallAtlas

open Ir

/-- A module of assembly text. -/
structure IrModule where
  identifier : String := ""
  sourceFilename : String := ""
  targetTriple : String := ""
  dataLayout : String := ""
  /-- Lines at module level that are no entity of their own. -/
  extraLines : List String := []
  types : Table String String := Table.empty
  comdats : Table String String := Table.empty
  globals : Table String Global := Table.empty
  functions : Table String Function := Table.empty
  attributeGroups : Table Nat String := Table.empty
  metadata : Table Nat MetadataNode := Table.empty
  namedMetadata : Table String (List Nat) := Table.empty
  deriving DecidableEq, Inhabited

namespace IrModule

/-! ## The symbol table -/

/-- The symbol of a name; a function comes before a global. -/
def symbol? (m : IrModule) (name : String) : Option Symbol :=
  match m.functions.get? name with
  | some f => some (.function f)
  | none => (m.globals.get? name).map .global

def symbolNames (m : IrModule) : List String :=
  m.functions.keys ++ m.globals.keys.filter fun n => !m.functions.contains n

/-- The symbols that are no declarations. -/
def definitions (m : IrModule) : List Symbol :=
  (m.globals.values.filter (!·.isDeclaration)).map .global ++
    (m.functions.values.filter (!·.isDeclaration)).map .function

def removeSymbol (m : IrModule) (name : String) : IrModule :=
  { m with functions := m.functions.erase name, globals := m.globals.erase name }

def putSymbol (m : IrModule) : Symbol → IrModule
  | .function f => { m with functions := m.functions.insert f.name f }
  | .global g => { m with globals := m.globals.insert g.name g }

/-- Changes the symbol of a name in its place. -/
def modifySymbol (m : IrModule) (name : String) (change : Symbol → Symbol) : IrModule :=
  match m.symbol? name with
  | none => m
  | some s =>
    match change s with
    | .function f => { m with functions := m.functions.insert name f }
    | .global g => { m with globals := m.globals.insert name g }

def referencesOf (m : IrModule) (name : String) : List String :=
  match m.symbol? name with
  | some s => s.references
  | none => []

def nextNumber {α : Type} (t : Table Nat α) : Nat := t.keys.foldl (fun n k => max n (k + 1)) 0

def nextMetadata (m : IrModule) : Nat := nextNumber m.metadata

def nextAttributeGroup (m : IrModule) : Nat := nextNumber m.attributeGroups

/-! ## Changing the text of parts -/

/-- Changes the texts of symbols, types and metadata. -/
def mapText (t : String → String) (m : IrModule) : IrModule :=
  { m with
    functions := m.functions.map (·.mapText t)
    globals := m.globals.map (·.mapText t)
    metadata := m.metadata.map fun n => { n with text := t n.text }
    types := m.types.map t }

/-- Renames symbols and every reference to them. Of two symbols that come to one name the later
stays. -/
def renameSymbols (m : IrModule) (mapping : Table String String) : IrModule :=
  if mapping.isEmpty then m
  else
    let m := m.mapText (renameGlobals mapping.get?)
    let new := fun name => (mapping.get? name).getD name
    { m with
      functions := Table.ofList (m.functions.entries.map fun e =>
        (new e.1, { e.2 with name := new e.1 }))
      globals := Table.ofList (m.globals.entries.map fun e =>
        (new e.1, { e.2 with name := new e.1 })) }

/-! ## Printing -/

def byNumber {α : Type} (t : Table Nat α) : List (Nat × α) :=
  t.entries.mergeSort fun a b => a.1 ≤ b.1

def paragraph (lines : List String) : List String := if lines.isEmpty then [] else "" :: lines

def namedMetadataLine (name : String) (ids : List Nat) : String :=
  "!" ++ name ++ " = !\x7b" ++
    ", ".intercalate (ids.map fun i => "!" ++ String.ofList (Text.natDigits i)) ++ "\x7d"

/-- The lines of a module as it is printed. -/
def lines (m : IrModule) : List String :=
  (if m.identifier.isEmpty then [] else ["; ModuleID = '" ++ m.identifier ++ "'"]) ++
  (if m.sourceFilename.isEmpty then [] else ["source_filename = \"" ++ m.sourceFilename ++ "\""]) ++
  (if m.dataLayout.isEmpty then [] else ["target datalayout = \"" ++ m.dataLayout ++ "\""]) ++
  (if m.targetTriple.isEmpty then [] else ["target triple = \"" ++ m.targetTriple ++ "\""]) ++
  m.extraLines ++
  paragraph (m.types.entries.map fun e => quoteName e.1 "%" ++ " = type " ++ e.2) ++
  paragraph (m.comdats.entries.map fun e => quoteName e.1 "$" ++ " = comdat " ++ e.2) ++
  paragraph (m.globals.values.map Global.line) ++
  m.functions.values.flatMap (fun f => "" :: f.lines) ++
  paragraph ((byNumber m.attributeGroups).map fun e =>
    "attributes #" ++ String.ofList (Text.natDigits e.1) ++ " = " ++ e.2) ++
  paragraph (m.namedMetadata.entries.map (fun e => namedMetadataLine e.1 e.2) ++
    (byNumber m.metadata).map fun e => e.2.line)

def print (m : IrModule) : String := "\n".intercalate m.lines ++ "\n"

end IrModule

end CallAtlas
