import CallAtlas.Debug.Location
import CallAtlas.Diagnostic
import CallAtlas.Handle
import CallAtlas.Text.Glob

/-!
# Call sites

A scan remembers resolved locations and reports each site without a location once.
-/

namespace CallAtlas.Scan

open Ir Debug

/-- A call as it stands in a body. -/
structure Call where
  caller : String
  callee : Option String
  opcode : String
  block : String
  index : Nat
  debug : Option Nat
  deriving DecidableEq, Repr

/-- A call with its source location. -/
structure CallSite where
  caller : String
  callee : Option String
  opcode : String := "call"
  block : String := ""
  index : Nat := 0
  location : Option Location := none
  deriving Repr

/-- The calls of a function: all instructions are counted, calls are kept. -/
def callsOf (f : Function) : List Call :=
  let labelled := f.blocks.flatMap fun b => b.instructions.map fun i => (b.label, i)
  labelled.zipIdx.filterMap fun p =>
    let i := p.1.2
    if i.isCall then some ⟨f.name, i.callee, i.opcode, p.1.1, p.2, i.debug⟩ else none

def calls (m : IrModule) : List Call :=
  (m.functions.values.filter (!·.isDeclaration)).flatMap callsOf

/-- What a scan remembers; it follows at most `depth` locations that were inlined one at another. -/
structure Memory where
  locations : Memo := Table.empty
  reported : List (String × Nat) := []
  diagnostics : List Diagnostic := []
  depth : Nat := 500

def missingReport (binary : String) (c : Call) : Diagnostic where
  kind := "missing-debug-info"
  message :=
    "call in @" ++ c.caller ++ " (instruction " ++ String.ofList (Text.natDigits c.index) ++
    ") has no debug location"
  severity := "warning"
  binary := if binary.isEmpty then none else some binary
  symbol := some c.caller
  detail := [("callee", .ofString? c.callee), ("block", .str c.block)]

def Memory.report (s : Memory) (binary : String) (c : Call) : Memory :=
  if s.reported.contains (c.caller, c.index) then s
  else { s with
    reported := (c.caller, c.index) :: s.reported
    diagnostics := s.diagnostics ++ [missingReport binary c] }

def Call.site (c : Call) (location : Option Location) : CallSite :=
  ⟨c.caller, c.callee, c.opcode, c.block, c.index, location⟩

/-- The site of a call; a missing location is reported once. -/
def visit (m : IrModule) (s : Memory) (c : Call) : Memory × Except ResolveError CallSite :=
  match c.debug with
  | none => (s.report m.identifier c, .ok (c.site none))
  | some id =>
    match resolve m.metadata s.depth s.locations id with
    | (locations, .error e) => ({ s with locations }, .error e)
    | (locations, .ok location) =>
      let s := { s with locations }
      (if location.isNone then s.report m.identifier c else s, .ok (c.site location))

/-- The sites of calls, up to a location that cannot be resolved. -/
def walk (m : IrModule) : Memory → List Call → Memory × Except ResolveError (List CallSite)
  | s, [] => (s, .ok [])
  | s, c :: cs =>
    match visit m s c with
    | (s, .error e) => (s, .error e)
    | (s, .ok site) =>
      match walk m s cs with
      | (s, .error e) => (s, .error e)
      | (s, .ok sites) => (s, .ok (site :: sites))

def sites (m : IrModule) (s : Memory) : Memory × Except ResolveError (List CallSite) :=
  walk m s (calls m)

def first (m : IrModule) (s : Memory) : Memory × Except ResolveError (Option CallSite) :=
  match calls m with
  | [] => (s, .ok none)
  | c :: _ =>
    match visit m s c with
    | (s, .error e) => (s, .error e)
    | (s, .ok site) => (s, .ok (some site))

/-- Whether a call is one of the targets, names or patterns. An indirect call is none. -/
def isTarget (targets : List String) (callee : Option String) : Bool :=
  match callee with
  | none => false
  | some name =>
    targets.any fun t => if Text.isGlob t then Text.globMatches t name else t = name

def filterSites (targets : List String) (sites : List CallSite) : List CallSite :=
  sites.filter fun s => isTarget targets s.callee

def byLocation (sites : List CallSite) : Table (String × Int) (List CallSite) :=
  sites.foldl (fun t s =>
    match s.location with
    | some l =>
      let key := (l.sourceFile, l.line)
      t.insert key ((t.get? key).getD [] ++ [s])
    | none => t) Table.empty

/-- The sites at a line of a file. -/
def lookup (sites : List CallSite) (file : String) (line : Int) : List CallSite :=
  ((byLocation sites).get? (Path.normalize file, line)).getD []

/-- The failure that a location without an outcome leads to. -/
def failureOf : ResolveError → Failure
  | .unreadable _ => .notInteger
  | .tooDeep => .tooDeep

/-- Runs a walk over the module of a handle, which the scan holds meanwhile. -/
def withHandle {α : Type} (h : Handle) (s : Memory)
    (step : IrModule → Memory → Memory × Except ResolveError α) : Memory × Except Failure α :=
  match h.acquire "scan" with
  | .error e => (s, .error e)
  | .ok (_, m) =>
    match step m s with
    | (s, .ok a) => (s, .ok a)
    | (s, .error e) => (s, .error (failureOf e))

end CallAtlas.Scan
