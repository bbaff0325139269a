import CallAtlas.Compile.Database
import CallAtlas.Json.Writing
import CallAtlas.Scan.CallSite

/-!
# Queries

What a reader of source files needs to find a call. A site without a location, or in a file without
a command, gives no query but a report.
-/

namespace CallAtlas.Compile

open Scan

/-- What is asked about a call site. -/
structure Query where
  sourceFile : String
  line : Int
  column : Int
  directory : String
  arguments : List Json
  caller : String
  callee : Option String

namespace Query

def toJson (q : Query) : Json :=
  .obj [("source_file", .str q.sourceFile), ("line", .int q.line), ("column", .int q.column),
    ("directory", .str q.directory), ("compile_arguments", .arr q.arguments),
    ("caller", .str q.caller), ("callee", .ofString? q.callee)]

def lines (qs : List Query) : String :=
  String.join (qs.map fun q => q.toJson.sortKeys.render ++ "\n")

def calleeText (callee : Option String) : String :=
  match callee with
  | some c => if c.isEmpty then "<indirect>" else c
  | none => "<indirect>"

/-- The query of a site. With `clean` the arguments are those that matter for reading the file. -/
def ofSite (d : Database) (clean : Bool) (s : CallSite) : Except Failure Query :=
  match s.location with
  | none =>
    .error
      (.of (.unresolved ("call in @" ++ s.caller ++ " to " ++ calleeText s.callee ++
      " has no debug location")
      none none))
  | some l =>
    match d.lookup l.sourceFile with
    | .error (.fault ⟨.noCommand path, _, _⟩) =>
      .error
        (.of (.unresolved ("no compile command for " ++ path) (some l.sourceFile) (some l.line)))
    | .error e => .error e
    | .ok c => do
      let arguments ← if clean then (c.flags d.map).map (List.map .str) else .ok c.arguments
      pure ⟨c.file, l.line, l.column, c.directory, arguments, s.caller, s.callee⟩

/-- Queries with diagnostics, up to a failure. -/
structure Stream where
  queries : List Query := []
  diagnostics : List Diagnostic := []
  failure : Option Failure := none

def report (f : Fault) (s : CallSite) : Diagnostic :=
  .ofFault f "warning" { symbol := some s.caller, detail := [("callee", .ofString? s.callee)] }

/-- The queries of sites in order; sites that cannot be resolved are reported. -/
def stream (d : Database) (clean : Bool) : List CallSite → Stream
  | [] => {}
  | s :: r =>
    match ofSite d clean s with
    | .ok q =>
      let rest := stream d clean r
      { rest with queries := q :: rest.queries }
    | .error (.fault f) =>
      if f.cause.skipsSite then
        let rest := stream d clean r
        { rest with diagnostics := report f s :: rest.diagnostics }
      else { failure := some (.fault f) }
    | .error e => { failure := some e }

end Query

end CallAtlas.Compile
