import CallAtlas.Ir.Module
import CallAtlas.Link.Appending

/-!
# Joining modules

Modules are joined one after the other into a destination:

* target and data layout must agree;
* the numbers of metadata nodes and attribute groups of the incoming module are moved past those
  present;
* a named type that is present with another body gets a new name;
* a local symbol whose name is taken gets a new name, on whichever side it is;
* a declaration yields to a definition, an overridable definition to a strong one, and of two equals
  the first stays; two strong definitions cannot be joined;
* appending arrays are concatenated;
* named metadata lists are concatenated, two of them without repeating a node's text.
-/

namespace CallAtlas.Link

open Ir

/-- The module built so far, who defined its names, and the merges done. -/
structure Merger where
  dest : IrModule
  definer : Table String String
  merged : Nat

def Merger.empty (identifier : String) : Merger := ⟨{ identifier }, Table.empty, 0⟩

/-- A merge that failed: what was done before, and why. -/
structure Broken where
  left : Merger
  error : MergeError

/-! ## Names -/

/-- The first numbered form of a name that is free. -/
def fresh (name : String) (taken : List String) : String :=
  let candidate := fun n => name ++ "." ++ String.ofList (Text.natDigits (n + 1))
  candidate (((List.range (taken.length + 1)).find? fun n => !taken.contains (candidate n)).getD
    taken.length)

/-- The names in use, and new names for old ones. -/
structure Renaming where
  taken : List String
  mapping : Table String String

/-- Gives a name a new one that is free. -/
def Renaming.add (r : Renaming) (name : String) : Renaming :=
  let new := fresh name r.taken
  ⟨new :: r.taken, r.mapping.insert name new⟩

/-! ## Steps -/

/-- Checks one header line: an empty one says nothing, a present one must agree. -/
def agree (present incoming : String) : Option String :=
  if incoming.isEmpty then some present
  else if present.isEmpty || present = incoming then some incoming
  else none

/-- Target and layout have to agree if both modules have them. -/
def Merger.checkTarget (g : Merger) (src : IrModule) : Except Broken Merger :=
  match agree g.dest.targetTriple src.targetTriple with
  | none => .error ⟨g, .tripleMismatch g.dest.targetTriple src.targetTriple src.identifier⟩
  | some triple =>
    let g := { g with dest.targetTriple := triple }
    match agree g.dest.dataLayout src.dataLayout with
    | none => .error ⟨g, .layoutMismatch g.dest.dataLayout src.dataLayout src.identifier⟩
    | some layout => .ok { g with dest.dataLayout := layout }

/-- The new names for the types of `src` that are present in `dest` with another body. Bodies are
compared after the renamings found so far. -/
def typeRenaming (dest src : IrModule) : Renaming :=
  src.types.entries.foldl (fun r e =>
    match dest.types.get? e.1 with
    | none => r
    | some body => if body = renameTypes r.mapping.get? e.2 then r else r.add e.1)
    ⟨dest.types.keys ++ src.types.keys, Table.empty⟩

/-- Gives types new names, in all texts too. -/
def renameTypesOf (src : IrModule) (mapping : Table String String) : IrModule :=
  if mapping.isEmpty then src
  else
    let src := src.mapText (renameTypes mapping.get?)
    { src with types :=
      Table.ofList (src.types.entries.map fun e => ((mapping.get? e.1).getD e.1, e.2)) }

/-- Adds the entries whose keys are not there yet. -/
def addNew {ν : Type} (t : Table String ν) (es : List (String × ν)) : Table String ν :=
  es.foldl (fun acc e => acc.insertNew e.1 e.2) t

/-- The symbols that both modules have. -/
def sharedNames (dest src : IrModule) : List String :=
  src.symbolNames.filter fun n => (dest.symbol? n).isSome

/-- The new names for local symbols with a shared name: those of the source, those of the
destination, and the names that are taken. -/
structure LocalRenaming where
  taken : List String
  source : Table String String
  dest : Table String String

/-- Decides about one shared name: a local symbol of the source is renamed, else a local one of the
destination. -/
def LocalRenaming.decide (dest src : IrModule) (r : LocalRenaming) (name : String) :
    LocalRenaming :=
  let new := fresh name r.taken
  if (src.symbol? name).any Symbol.isLocal then
    { r with taken := new :: r.taken, source := r.source.insert name new }
  else if (dest.symbol? name).any Symbol.isLocal then
    { r with taken := new :: r.taken, dest := r.dest.insert name new }
  else r

/-- New names for local symbols with a shared name, on either side. -/
def localRenaming (dest src : IrModule) (shared : List String) : LocalRenaming :=
  shared.foldl (LocalRenaming.decide dest src)
    ⟨dest.symbolNames ++ src.symbolNames, Table.empty, Table.empty⟩

/-- Moves entries to new keys, behind the others. -/
def renameKeys (t mapping : Table String String) : Table String String :=
  mapping.entries.foldl (fun t e =>
    match t.get? e.1 with
    | some v => (t.erase e.1).insert e.2 v
    | none => t) t

/-- Puts a symbol in the place of the one of its name. -/
def replaceSymbol (dest : IrModule) (existing sym : Symbol) : IrModule :=
  match existing, sym with
  | .function _, .function _ | .global _, .global _ => dest.putSymbol sym
  | _, _ => (dest.removeSymbol existing.name).putSymbol sym

def bothAppending? : Symbol → Symbol → Option (Global × Global)
  | .global a, .global b =>
    if a.linkage = .appending && b.linkage = .appending then some (a, b) else none
  | _, _ => none

/-- Adds a symbol, which may replace, join or give way to one that is there. -/
def Merger.mergeSymbol (origin : String) (g : Merger) (sym : Symbol) : Except Broken Merger :=
  let defined := fun dest => { g with dest, definer := g.definer.insert sym.name origin }
  match g.dest.symbol? sym.name with
  | none =>
    let dest := g.dest.putSymbol sym
    .ok (if sym.isDeclaration then { g with dest } else defined dest)
  | some existing =>
    if sym.isDeclaration then .ok g
    else if existing.isDeclaration then .ok (defined (replaceSymbol g.dest existing sym))
    else
      match bothAppending? existing sym with
      | some (a, b) =>
        match joinArrays a.segment b.segment sym.name with
        | .ok segment => .ok { g with dest := g.dest.putSymbol (.global { a with segment }) }
        | .error e => .error ⟨g, e⟩
      | none =>
        if sym.linkage.isOverridable then .ok g
        else if existing.linkage.isOverridable
          then .ok (defined (replaceSymbol g.dest existing sym))
        else .error ⟨g, .duplicate sym.name ((g.definer.get? sym.name).getD "<unknown>") origin⟩

/-- The named metadata lists that repeat no node's text. -/
def textSets : List String := ["llvm.module.flags", "llvm.ident"]

/-- The numbers with those added whose nodes have a new text. -/
def addByText (metadata : Table Nat MetadataNode) (present added : List Nat) : List Nat :=
  let text := fun i => (metadata.get? i).map MetadataNode.text
  (added.foldl (fun (acc : List Nat × List String) i =>
    match text i with
    | some t => if acc.2.contains t then acc else (acc.1 ++ [i], t :: acc.2)
    | none => (acc.1 ++ [i], acc.2)) (present, present.filterMap text)).1

/-- Joins the lists of named metadata, some of them with each text once. -/
def mergeNamed (dest : IrModule) (named : List (String × List Nat)) (offset : Nat) : IrModule :=
  named.foldl (fun dest e =>
    let added := e.2.map (· + offset)
    let present := (dest.namedMetadata.get? e.1).getD []
    let joined := if textSets.contains e.1 then addByText dest.metadata present added
    else present ++ added
    { dest with namedMetadata := dest.namedMetadata.insert e.1 joined }) dest

/-- Adds lines that are not there yet. -/
def addLines (present added : List String) : List String :=
  added.foldl (fun acc l => if acc.contains l then acc else acc ++ [l]) present

/-- Takes over comdats, attribute groups, metadata and extra lines. -/
def mergeRest (dest src : IrModule) (metadataOffset attributeOffset : Nat) : IrModule :=
  let dest := { dest with
    comdats := addNew dest.comdats src.comdats.entries
    attributeGroups := dest.attributeGroups.insertMany
      (src.attributeGroups.entries.map fun e => (e.1 + attributeOffset, e.2))
    metadata := dest.metadata.insertMany
      (src.metadata.entries.map fun e => (e.1 + metadataOffset, ⟨e.1 + metadataOffset, e.2.text⟩)) }
  let dest := mergeNamed dest src.namedMetadata.entries metadataOffset
  { dest with extraLines := addLines dest.extraLines src.extraLines }

/-- Adds types; one with another body than its namesake gets a new name. -/
def Merger.unifyTypes (g : Merger) (src : IrModule) : Merger × IrModule :=
  let src := renameTypesOf src (typeRenaming g.dest src).mapping
  ({ g with dest.types := addNew g.dest.types src.types.entries }, src)

/-- Gives local symbols with a shared name new names. -/
def Merger.renameLocals (g : Merger) (src : IrModule) : Merger × IrModule :=
  let r := localRenaming g.dest src (sharedNames g.dest src)
  ({ g with dest := g.dest.renameSymbols r.dest, definer := renameKeys g.definer r.dest },
    src.renameSymbols r.source)

/-- The symbols to merge: globals, then functions. -/
def symbolsInOrder (src : IrModule) : List Symbol :=
  src.globals.values.map .global ++ src.functions.values.map .function

/-- Merges a module into the one built so far. -/
def Merger.merge (g : Merger) (src : IrModule) : Except Broken Merger := do
  let g ← g.checkTarget src
  let g := if g.merged = 0 then { g with dest.sourceFilename := src.sourceFilename } else g
  let metadataOffset := g.dest.nextMetadata
  let attributeOffset := g.dest.nextAttributeGroup
  let src := src.mapText (shiftNumbered metadataOffset attributeOffset)
  let (g, src) := g.unifyTypes src
  let (g, src) := g.renameLocals src
  let g ← (symbolsInOrder src).foldlM (Merger.mergeSymbol src.identifier) g
  pure { g with
    dest := mergeRest g.dest src metadataOffset attributeOffset
    merged := g.merged + 1 }

/-- Merges modules in order. -/
def mergeAll (identifier : String) (modules : List IrModule) : Except Broken Merger :=
  modules.foldlM Merger.merge (.empty identifier)

end CallAtlas.Link
