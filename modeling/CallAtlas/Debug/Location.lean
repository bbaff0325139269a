import CallAtlas.Ir.Module
import CallAtlas.Path

/-!
# Debug locations

A location names a scope, and the chain of scopes ends at a subprogram; the source file is that of
the innermost scope with a usable file. A location that was inlined names the location of the call.
While one is being resolved it counts as having no position, so a chain that leads back to itself
ends there.
-/

namespace CallAtlas.Debug

open Ir

/-- A place in a source file, and where it was inlined. -/
structure Location where
  sourceFile : String
  line : Int
  column : Int
  directory : String
  inlinedAt : Option Location
  deriving Repr

def scopeKinds : List String :=
  ["DILexicalBlock", "DILexicalBlockFile", "DISubprogram", "DINamespace", "DIModule"]

def maxScopes : Nat := 256

def nodeOf (metadata : Table Nat MetadataNode) (n : MetadataNode) (field : String) :
    Except UnreadableNumber (Option MetadataNode) := do
  pure ((← n.fieldRef field).bind metadata.get?)

/-- The name and the directory of a file node; a file without a name is none. -/
def fileOf (n : MetadataNode) : Option (String × String) :=
  let decode := fun (s : String) => String.ofList (unescape s.toList)
  if n.kind = "DIFile" then
    match n.fieldString "filename" with
    | some name =>
      if name.isEmpty then none
        else some (decode name, decode ((n.fieldString "directory").getD ""))
    | none => none
  else none

def unitDirectory (metadata : Table Nat MetadataNode) (subprogram : MetadataNode) :
    Except UnreadableNumber (Option String) := do
  match ← nodeOf metadata subprogram "unit" with
  | some unit =>
    if unit.kind = "DICompileUnit" then
      pure (((← nodeOf metadata unit "file").bind fileOf).map Prod.snd)
    else pure none
  | none => pure none

/-- Follows a chain of scopes: the first usable file, and the directory of the unit at its end. A
scope that comes again ends the chain. -/
def walkScopes (metadata : Table Nat MetadataNode) :
    Nat → List Nat → Option (String × String) → Option MetadataNode →
      Except UnreadableNumber (Option (String × String) × Option String)
  | 0, _, file, _ => .ok (file, none)
  | _, _, file, none => .ok (file, none)
  | fuel + 1, seen, file, some scope =>
    if seen.contains scope.id then .ok (file, none)
    else do
      let file ← match file with
        | some f => pure (some f)
        | none => do pure ((← nodeOf metadata scope "file").bind fileOf)
      if scope.kind = "DISubprogram" then pure (file, ← unitDirectory metadata scope)
      else if scopeKinds.contains scope.kind then
        walkScopes metadata fuel (scope.id :: seen) file (← nodeOf metadata scope "scope")
      else pure (file, none)

structure Position where
  location : Location
  inlinedRef : Option Nat

def sourcePath (directory name : String) : String :=
  if directory.isEmpty then Path.normalize name else Path.normalize (Path.join directory name)

/-- The position that a location node describes; none if the node is of another kind or no scope has
a file. -/
def position (metadata : Table Nat MetadataNode) (n : MetadataNode) :
    Except UnreadableNumber (Option Position) := do
  if n.kind ≠ "DILocation" then pure none
  else
    let scope ← nodeOf metadata n "scope"
    match ← walkScopes metadata maxScopes [] none scope with
    | (none, _) => pure none
    | (some (name, directory), unit) =>
      let loc : Location :=
        ⟨sourcePath directory name, (n.fieldInt "line").getD 0, (n.fieldInt "column").getD 0,
        unit.getD directory, none⟩
      pure (some ⟨loc, ← n.fieldRef "inlinedAt"⟩)

/-- The locations resolved so far. -/
abbrev Memo := Table Nat (Option Location)

/-- Why a location has no outcome. -/
inductive ResolveError where
  | unreadable (e : UnreadableNumber)
  | tooDeep
  deriving DecidableEq, Repr

/-- Resolves the location node of a number, where at most `depth` locations are followed. If it
fails, every node on the way there is remembered as having no position. -/
def resolve (metadata : Table Nat MetadataNode) :
    Nat → Memo → Nat → Memo × Except ResolveError (Option Location)
  | 0, memo, _ => (memo, .error .tooDeep)
  | depth + 1, memo, id =>
    match memo.get? id with
    | some found => (memo, .ok found)
    | none =>
      match (metadata.get? id).map (position metadata) with
      | none => (memo.insert id none, .ok none)
      | some (.error e) => (memo.insert id none, .error (.unreadable e))
      | some (.ok none) => (memo.insert id none, .ok none)
      | some (.ok (some ⟨loc, none⟩)) => (memo.insert id (some loc), .ok (some loc))
      | some (.ok (some ⟨loc, some call⟩)) =>
        match resolve metadata depth (memo.insert id none) call with
        | (memo, .error e) => (memo, .error e)
        | (memo, .ok inlinedAt) =>
          let loc := { loc with inlinedAt }
          (memo.insert id (some loc), .ok (some loc))

end CallAtlas.Debug
