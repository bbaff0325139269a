import CallAtlas.Bitcode.Validate
import CallAtlas.Compile.Query
import CallAtlas.Loader.Order
import CallAtlas.Link.Catalog
import CallAtlas.LogStore
import CallAtlas.Optimize.Pipeline
import CallAtlas.Progress
import CallAtlas.Work.Order

/-!
# Runs

A run takes every root of a work order through its phases. A wrong dependency model stops the run. A
fault of a binary, of a tool or of a handle stops the work on its root, and the other roots go on.
Any other failure ends the run after the remaining roots.
-/

namespace CallAtlas.Work

open Bitcode Container Tool

/-- All that a run needs, made from a work order. -/
structure Plan where
  order : Order
  host : Host
  tools : Toolchain
  disassembler : Link.Disassembler
  validator : Validator
  search : Loader.Search
  pipeline : Optimize.Pipeline
  logs : Option LogStore := none
  now : Number := .float 1.0

namespace Plan

def new (host : Host) (order : Order) (needs : Option Loader.Needs)
    (disassembler : Option Link.Disassembler) (logs : Option LogStore) : Except Failure Plan := do
  let tools ← order.toolchain host.env
  let validator ← Validator.ofName host tools order.validator
  let pipeline ← Optimize.Pipeline.ofNames order.passes
  pure {
    order, host, tools, validator, pipeline, logs
    disassembler := disassembler.getD (.ofTools host tools)
    search := {
      files := host.files
      needs := needs.getD (.ofElf host.files)
      searchPaths := order.searchPaths
      staticOrder := order.staticOrder
      systemLibraries := order.systemLibraries.getD Loader.defaultSystemLibraries } }

/-- The backend that the order asks for. -/
def backend (p : Plan) : Except Failure Link.Backend :=
  (Link.Catalog.standard p.host p.tools p.disassembler).create p.order.linker

end Plan

/-- What came of a root. -/
structure RootOutcome where
  root : String
  completed : Bool := false
  binaries : List String := []
  moduleCount : Nat := 0
  callSites : Nat := 0
  queries : List Compile.Query := []
  error : Option String := none

/-- What is kept from run to run. -/
structure Memory where
  diagnostics : List Diagnostic := []
  dependencies : Loader.Memory := {}
  files : FileTree
  disassembled : List String := []

/-- The state of a run at work on a root. -/
structure Desk where
  memory : Memory
  run : String
  progress : Progress := {}
  buffers : Table String (List Buffer) := Table.empty
  outcome : RootOutcome

/-- Work at a desk, which may fail. -/
abbrev Stage (α : Type) := ExceptT Failure (StateM Desk) α

/-! ## Phases -/

def logLine (p : Phase) : String :=
  let duration := match p.duration with
    | some d => " (" ++ d.render Decimal.plain ++ "s)"
    | none => ""
  let detail := if p.detail.isEmpty then "" else " - " ++ p.detail
  let error := match p.error with
    | some e => if e.isEmpty then "" else " ERROR: " ++ e
    | none => ""
  "[" ++ p.status.name ++ "]" ++ duration ++ detail ++ error ++ "\n"

/-- The files with a line for the latest phase of a root and a name in its log. -/
def logPhase (logs : Option LogStore) (run root phase : String) (g : Progress) (files : FileTree) :
    FileTree :=
  match logs, g.latest? root phase with
  | some store, some p =>
    match store.append files run (root ++ "." ++ phase) (logLine p) with
    | .ok files => files
    | .error _ => files
  | _, _ => files

namespace Desk

/-- Notes a phase, also in its log. -/
def record (d : Desk) (logs : Option LogStore) (phase : String) (g : Progress) : Desk :=
  { d with
    progress := g
    memory.files := logPhase logs d.run d.outcome.root phase g d.memory.files }

def report (d : Desk) (ds : List Diagnostic) : Desk :=
  { d with memory.diagnostics := d.memory.diagnostics ++ ds }

end Desk

/-- The faults that end the work on a root. -/
def stopsRoot : Cause → Bool
  | .toolchain _ | .stale _ => true
  | c => c.stopsRoot

/-- What a failure in a phase changes: a fault that stops the root or the run fails the phase, and
one that stops the root is reported. -/
def failPhase (p : Plan) (phase : String) (e : Failure) (d : Desk) : Desk :=
  match e with
  | .fault f =>
    if f.cause.stopsRun || stopsRoot f.cause then
      let d := d.record p.logs phase (d.progress.fail p.now phase f.message d.outcome.root)
      if stopsRoot f.cause then
        let d := d.report [.ofFault f "error"
          { binary := Diagnostic.firstText f.binary (some d.outcome.root),
            detail := [("phase", .str phase)] }]
        { d with outcome.error := some f.message }
      else d
    else d
  | _ => d

/-- Work as a phase: started, and completed or failed. -/
def inPhase {α : Type} (p : Plan) (phase : String) (work : Stage α) (detail : α → String) :
    Stage α := do
  modify fun d => d.record p.logs phase (d.progress.start p.now phase d.outcome.root)
  let a ← tryCatch work fun e => do
    modify (failPhase p phase e)
    throw e
  modify fun d => d.record p.logs phase (d.progress.complete p.now phase (detail a) d.outcome.root)
  pure a

/-- The root and its dependencies. -/
def findBinaries (p : Plan) : Stage (List Binary) := do
  let root := (← get).outcome.root
  let binary ← match Binary.ofPath p.host.files root with
    | .ok b => pure b
    | .error (.file e) =>
      throw (.fault ⟨.noSection ("cannot read binary: " ++ e.message), some root, true⟩)
    | .error e => throw e
  let (memory, found) := p.search.resolve (← get).memory.dependencies binary
  modify fun d => { d with memory.dependencies := memory }
  let deps ← found
  modify fun d => { d with outcome.binaries := binary.path :: deps.map Binary.path }
  pure (binary :: deps)

def splitSections (p : Plan) (sections : List Embedded) : Except Failure (List Buffer) := do
  let parts ← sections.mapM fun s =>
    match split p.host.depth p.validator s.origin s.data with
    | (buffers, none) => .ok buffers
    | (_, some e) => .error e
  pure parts.flatten

/-- The buffers of a binary, as remembered if it was met before. A binary without modules is
reported. -/
def buffersOf (p : Plan) (b : Binary) : Stage (List Buffer) := do
  match (← get).buffers.get? (Loader.keyOf b) with
  | some buffers => pure buffers
  | none =>
    let buffers ← match Embedded.extract p.host p.tools b with
      | .error (.fault f) =>
        match f.cause with
        | .noSection _ =>
          modify fun d => d.report [.ofFault f "warning" {}]
          pure []
        | _ => throw (.fault f)
      | .error e => throw e
      | .ok sections => splitSections p sections
    modify fun d => { d with buffers := d.buffers.insert (Loader.keyOf b) buffers }
    pure buffers

def extractAll (p : Plan) (binaries : List Binary) : Stage (List Buffer) := do
  let buffers := (← binaries.mapM (buffersOf p)).flatten
  modify fun d => { d with outcome.moduleCount := buffers.length }
  pure buffers

/-- Links the buffers; those that were loaded are noted. -/
def linkAll (backend : Link.Backend) (buffers : List Buffer) : Stage Handle := do
  let linked := Link.linkBuffers backend buffers (← get).outcome.root
  modify fun d =>
    { d with memory.disassembled := d.memory.disassembled ++ linked.loaded.map Buffer.identifier }
  linked.handle

def optimize (p : Plan) (h : Handle) : Stage Handle := do
  let (h, result) := p.pipeline.run h p.order.preserve
  result
  pure h

/-- The call sites of a module that the order asks for. -/
def scan (p : Plan) (h : Handle) : Stage (List Scan.CallSite) := do
  let (memory, found) := Scan.withHandle h { depth := p.host.depth } Scan.sites
  modify fun d => d.report memory.diagnostics
  let found ← found
  let sites := if p.order.targets.isEmpty then found else Scan.filterSites p.order.targets found
  modify fun d => { d with outcome.callSites := sites.length }
  pure sites

def makeQueries (database : Compile.Database) (sites : List Scan.CallSite) :
    Stage (List Compile.Query) := do
  let s := Compile.Query.stream database true sites
  modify fun d => d.report s.diagnostics
  if let some e := s.failure then throw e
  modify fun d => { d with outcome.queries := s.queries }
  pure s.queries

def processRoot (p : Plan) (backend : Link.Backend) (database : Compile.Database) : Stage Unit := do
  let counted := fun (n : Nat) (what : String) => String.ofList (Text.natDigits n) ++ " " ++ what
  let binaries ← inPhase p "deps" (findBinaries p) fun bs => counted (bs.length - 1) "dependencies"
  let buffers ← inPhase p "extract" (extractAll p binaries) fun bs => counted bs.length "modules"
  let handle ← inPhase p "link" (linkAll backend buffers) fun _ => backend.name
  let handle ← inPhase p "optimize" (optimize p handle) fun _ => ",".intercalate p.pipeline.names
  let sites ← inPhase p "scan" (scan p handle) fun ss => counted ss.length "call sites"
  let _ ← inPhase p "bridge" (makeQueries database sites) fun qs => counted qs.length "queries"
  modify fun d => { d with outcome.completed := true }

/-! ## The run -/

/-- What a run reports. -/
structure Report where
  run : String
  outcomes : List RootOutcome
  diagnostics : List Diagnostic

namespace Report

def queries (r : Report) : List Compile.Query := r.outcomes.flatMap RootOutcome.queries

def failedRoots (r : Report) : List String :=
  (r.outcomes.filter (!·.completed)).map RootOutcome.root

end Report

/-- Works on a root. A fault that stops the root is part of its outcome. -/
def runRoot (p : Plan) (backend : Link.Backend) (database : Compile.Database) (d : Desk)
    (root : String) :
    Desk × Except Failure RootOutcome :=
  match (processRoot p backend database).run { d with outcome := { root } } with
  | (.ok (), d) => (d, .ok d.outcome)
  | (.error (.fault f), d) => (d, if stopsRoot f.cause then .ok d.outcome else .error (.fault f))
  | (.error e, d) => (d, .error e)

/-- Whether later roots are not worked on. -/
def stopsAtOnce : Failure → Bool
  | .fault f => f.cause.stopsRun
  | .endless => true
  | _ => false

/-- Works on roots in order. The first failure counts; unless it stops the run at once, the
remaining roots are worked on still. -/
def runRoots (p : Plan) (backend : Link.Backend) (database : Compile.Database) :
    Desk → List String → Desk × Except Failure (List RootOutcome)
  | d, [] => (d, .ok [])
  | d, root :: rest =>
    match runRoot p backend database d root with
    | (d, .ok outcome) =>
      match runRoots p backend database d rest with
      | (d, .ok outcomes) => (d, .ok (outcome :: outcomes))
      | (d, .error e) => (d, .error e)
    | (d, .error e) =>
      if stopsAtOnce e then (d, .error e)
      else
        let d := rest.foldl (fun d root => (runRoot p backend database d root).1) d
        (d, .error e)

/-- What a run leaves behind. -/
structure Result where
  memory : Memory
  progress : Progress
  report : Except Failure Report

/-- Runs a plan on its roots. -/
def Plan.run (p : Plan) (name : String) (memory : Memory) : Result :=
  match Compile.Database.ofFiles p.host.files p.order.databases p.order.prefixes.entries with
  | .error e => ⟨memory, {}, .error e⟩
  | .ok database =>
    let memory := { memory with diagnostics := memory.diagnostics ++ database.diagnostics }
    match p.backend with
    | .error e => ⟨memory, {}, .error e⟩
    | .ok backend =>
      let (d, outcomes) :=
        runRoots p backend database { memory, run := name, outcome := { root := "" } } p.order.roots
      ⟨d.memory, d.progress, outcomes.map fun os => ⟨name, os, d.memory.diagnostics⟩⟩

end CallAtlas.Work
