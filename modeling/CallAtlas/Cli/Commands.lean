import CallAtlas.Cli.Help
import CallAtlas.Work.Run

/-!
# Commands

The commands of the program, as functions from the surroundings to what they print and write.
-/

namespace CallAtlas.Cli

open Bitcode Container Tool

inductive Ending where
  | exit (code : Nat)
  | usage
  | crash (e : Failure)
  deriving DecidableEq, Repr

/-- What a command prints and writes. -/
structure Output where
  stdout : String := ""
  stderr : String := ""
  files : FileTree
  ending : Ending := .exit 0

namespace Output

def echo (o : Output) (line : String) : Output := { o with stdout := o.stdout ++ line ++ "\n" }

def warn (o : Output) (line : String) : Output := { o with stderr := o.stderr ++ line ++ "\n" }

def fail (o : Output) (message : String) : Output :=
  { o.warn ("Error: " ++ message) with ending := .exit 1 }

def crash (o : Output) (e : Failure) : Output := { o with ending := .crash e }

/-- Ends with a failure: a fault is reported as `words` says. -/
def failWith (o : Output) (e : Failure) (words : Fault → Option String) : Output :=
  match e with
  | .fault f =>
    match words f with
    | some message => o.fail message
    | none => o.crash e
  | e => o.crash e

end Output

def isConfig : Cause → Bool
  | .config _ | .workOrder .. | .pipeline _ => true
  | _ => false

def withKind (f : Fault) : Option String := some (f.cause.kind ++ ": " ++ f.message)

def configOnly (f : Fault) : Option String := if isConfig f.cause then some f.message else none

def fourDigits (n : Nat) : String :=
  let digits := Text.natDigits n
  String.ofList (List.replicate (4 - digits.length) '0' ++ digits)

def count (n : Nat) : String := String.ofList (Text.natDigits n)

/-! ## The commands -/

def createWork (host : Host) (path : String) : Output :=
  let o : Output := { files := host.files }
  match host.files.write (Path.tidy path)
    (Bytes.ofText (Work.Order.template.renderIndented 0 ++ "\n")) with
  | .error e => o.crash e
  | .ok files =>
    ({ o with files }.echo ("Work order template written to " ++ path)).echo
      ("Edit the file, then run: z-bridge run " ++ path)

def statusSign : PhaseStatus → String
  | .completed => "+"
  | .failed => "!"
  | .skipped => "-"
  | .running => "~"

def phaseLine (p : Phase) : String :=
  let duration := match p.duration with
    | some d => if d.isZero then "" else " (" ++ d.render Decimal.plain ++ "s)"
    | none => ""
  let detail := if p.detail.isEmpty then "" else " - " ++ p.detail
  let error := match p.error with
    | some e => if e.isEmpty then "" else " ERROR: " ++ e
    | none => ""
  "  [" ++ statusSign p.status ++ "] " ++ Path.name p.root ++ ":" ++ p.phase ++ duration ++
    detail ++ error

def runMessage (f : Fault) : Option String :=
  if isConfig f.cause then some f.message
  else if f.cause.stopsRun then some ("run aborted (" ++ f.cause.kind ++ "): " ++ f.message)
  else withKind f

def summarize (o : Output) (r : Work.Result) (report : Work.Report) : Output :=
  let o := o.warn ("\nPipeline summary (total: " ++ r.progress.total.render Decimal.plain ++ "s):")
  let o := r.progress.phases.foldl (fun o p => o.warn (phaseLine p)) o
  let counts := (Diagnostic.counts r.memory.diagnostics).entries.mergeSort fun a b => a.1 ≤ b.1
  let o := if counts.isEmpty then o
    else o.warn ("Diagnostics: " ++ ", ".intercalate (counts.map fun c => c.1 ++ "=" ++ count c.2))
  if report.failedRoots.isEmpty then o else { o with ending := .exit 2 }

def run (host : Host) (name workFile : String) (output logDirectory : Option String) : Output :=
  let given := fun (s : Option String) => s.filter fun s => !s.isEmpty
  let o : Output := { files := host.files }
  let started : Except Failure (Work.Order × Work.Result) := do
    let order ← Work.Order.load host.files workFile
    let plan ← Work.Plan.new host order none none ((given logDirectory).map LogStore.mk)
    pure (order, plan.run name { files := host.files })
  match started with
  | .error e => o.failWith e runMessage
  | .ok (order, r) =>
    let o := { o with files := r.memory.files }
    match r.report with
    | .error e => o.failWith e runMessage
    | .ok report =>
      let text := Compile.Query.lines report.queries
      match given output <|> given order.output with
      | none => summarize { o with stdout := text } r report
      | some path =>
        match o.files.write path (Bytes.ofText text) with
        | .error e => o.crash e
        | .ok files =>
          summarize ({ o with files }.warn (count report.queries.length ++ " queries written to " ++
            path)) r report

def listBuffers (directory : Option String) : Output → List (Buffer × Nat) → Output
  | o, [] => o
  | o, (b, i) :: r =>
    let line :=
      "  " ++ b.identifier ++ "  offset=" ++ count b.offset ++ "  size=" ++ count b.data.length
    match directory with
    | none => listBuffers directory (o.echo line) r
    | some d =>
      let path := Path.tidy (Path.join d ("module_" ++ fourDigits i ++ ".bc"))
      match o.files.write path b.data with
      | .error e => o.crash e
      | .ok files => listBuffers directory ({ o with files }.echo (line ++ "  -> " ++ path)) r

def extractBuffers (host : Host) (path validator : String) :
    Except Failure (List Embedded × List Buffer) := do
  let tools ← Toolchain.new host.env none none none
  let validator ← Validator.ofName host tools validator
  let binary ← Binary.ofPath host.files path
  let sections ← Embedded.extract host tools binary
  let parts ← sections.mapM fun s =>
    match split host.depth validator s.origin s.data with
    | (buffers, none) => Except.ok buffers
    | (_, some e) => Except.error e
  pure (sections, parts.flatten)

/-- Lists the modules in a binary, and writes them out. -/
def extract (host : Host) (path : String) (directory : Option String) (validator : String) :
    Output :=
  let directory := (directory.filter fun d => !d.isEmpty).map Path.tidy
  let o : Output := { files := host.files }
  match extractBuffers host path validator with
  | .error e => o.failWith e withKind
  | .ok (sections, buffers) =>
    let made := match directory with
      | some d => host.files.makeDirectories d
      | none => .ok host.files
    match made with
    | .error e => o.crash e
    | .ok files =>
      let o := listBuffers directory { o with files } buffers.zipIdx
      match o.ending with
      | .exit 0 =>
        o.echo (count buffers.length ++ " module(s) in " ++ count sections.length ++ " section(s)")
      | _ => o

def deps (host : Host) (path : String) (searchPaths : List String) : Output :=
  let o : Output := { files := host.files }
  let search : Loader.Search := { files := host.files, needs := .ofElf host.files, searchPaths }
  match (search.resolvePath {} path).2 with
  | .error e => o.failWith e withKind
  | .ok found => found.foldl (fun o b => o.echo b.path) o

def siteLine (s : Scan.CallSite) : String :=
  let place := match s.location with
    | some l => l.sourceFile ++ ":" ++ String.ofList (Text.intDigits l.line)
    | none => "<no debug info>"
  "  " ++ s.caller ++ " -> " ++ Compile.Query.calleeText s.callee ++ "  " ++ place

def listCalls (m : IrModule) (targets : List String) :
    Output → Scan.Memory → List Scan.Call → Output × Scan.Memory
  | o, s, [] => (o, s)
  | o, s, c :: cs =>
    match Scan.visit m s c with
    | (s, .error _) => (o.crash .notInteger, s)
    | (s, .ok site) =>
      let shown := targets.isEmpty || Scan.isTarget targets site.callee
      listCalls m targets (if shown then o.echo (siteLine site) else o) s cs

def scan (host : Host) (path : String) (targets : List String) : Output :=
  let o : Output := { files := host.files }
  match host.files.readText (Path.tidy path) with
  | .error e => o.crash e
  | .ok text =>
    match IrModule.parse text path with
    | .error e => o.crash (.invalid e.message)
    | .ok m =>
      let (o, s) := listCalls m targets o {} (Scan.calls m)
      match o.ending with
      | .exit _ =>
        if s.diagnostics.isEmpty then o
        else o.warn (count s.diagnostics.length ++ " call site(s) without debug info")
      | _ => o

def compdb (host : Host) (paths : List String) (lookup : Option String) : Output :=
  let o : Output := { files := host.files }
  match Compile.Database.ofFiles host.files paths [] with
  | .error e => o.failWith e configOnly
  | .ok d =>
    match lookup.filter fun p => !p.isEmpty with
    | some path =>
      match d.flagsFor path with
      | .error e => o.failWith e fun f => some f.message
      | .ok flags => o.echo (Json.arr (flags.map .str)).render
    | none =>
      let o := o.echo ("Entries: " ++ count d.entries.size)
      let o := o.echo ("Identical duplicates: " ++ count d.duplicates)
      let o := o.echo ("Conflicts: " ++ count d.conflicts.length)
      d.conflicts.foldl (fun o c => o.echo
        ("  " ++ c.file ++ "  (kept " ++ c.kept.database ++ ", ignored " ++
          c.ignored.database ++ ")")) o

/-! ## The command line -/

def helpSpec : OptionSpec := { long := "--help", takesValue := false }

def groupSpecs : List OptionSpec :=
  [{ long := "--verbose", short := some 'v', takesValue := false }, helpSpec]

def specsOf : String → Option (List OptionSpec)
  | "create-work" => some [{ long := "--output", short := some 'o' }, helpSpec]
  | "run" => some [{ long := "--output", short := some 'o' }, { long := "--log-dir" }, helpSpec]
  | "extract" =>
    some [{ long := "--output-dir", short := some 'o' }, { long := "--validator" }, helpSpec]
  | "deps" => some [{ long := "--search-path" }, helpSpec]
  | "scan" => some [{ long := "--target" }, helpSpec]
  | "compdb" => some [{ long := "--lookup" }, helpSpec]
  | _ => none

/-- Why arguments cannot be taken as paths of things that are there. -/
def pathEnding? (host : Host) : List String → Option Ending
  | [] => none
  | path :: r =>
    if path.toList.contains '\x00' then some (.crash (.invalid "embedded null byte"))
    else if host.files.hasPath path then pathEnding? host r
    else some .usage

def onPath (host : Host) (p : Parsed) (command : String → Output) : Output :=
  match p.positional with
  | [path] =>
    match pathEnding? host [path] with
    | some ending => { files := host.files, ending }
    | none => command path
  | _ => { files := host.files, ending := .usage }

def command (host : Host) (run : String) (name : String) (p : Parsed) : Output :=
  let usage : Output := { files := host.files, ending := .usage }
  match name with
  | "create-work" =>
    if p.positional.isEmpty then createWork host ((p.value? "--output").getD "work.json") else usage
  | "run" =>
    onPath host p fun path => Cli.run host run path (p.value? "--output") (p.value? "--log-dir")
  | "extract" =>
    let validator := (p.value? "--validator").getD "bitstream"
    if ["bitstream", "llvm-bcanalyzer"].contains validator then
      onPath host p fun path => extract host path (p.value? "--output-dir") validator
    else usage
  | "deps" => onPath host p fun path => deps host path (p.values "--search-path")
  | "scan" => onPath host p fun path => scan host path (p.values "--target")
  | "compdb" =>
    if p.positional.isEmpty then usage
    else match pathEnding? host p.positional with
      | some ending => { files := host.files, ending }
      | none => compdb host p.positional (p.value? "--lookup")
  | _ => usage

def main (host : Host) (run : String) (args : List String) : Output :=
  let usage : Output := { files := host.files, ending := .usage }
  let help : String → Output := fun text => { stdout := text, files := host.files }
  match parseArguments groupSpecs false args with
  | none => usage
  | some group =>
    if group.has "--help" then help programHelp
    else match group.positional with
      | [] => usage
      | name :: rest =>
        match (specsOf name).bind fun specs => parseArguments specs true rest with
        | none => usage
        | some p => if p.has "--help" then help (commandHelp name) else command host run name p

end CallAtlas.Cli
