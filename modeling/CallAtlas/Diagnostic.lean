import CallAtlas.Fault
import CallAtlas.Json.Basic

/-! # Diagnostics -/

namespace CallAtlas

/-- A report to the user. -/
structure Diagnostic where
  kind : String
  message : String
  severity : String := "warning"
  binary : Option String := none
  symbol : Option String := none
  file : Option String := none
  line : Option Int := none
  detail : List (String × Json) := []

/-- What the reporter adds to a fault. -/
structure Context where
  binary : Option String := none
  symbol : Option String := none
  file : Option String := none
  line : Option Int := none
  detail : List (String × Json) := []

namespace Diagnostic

/-- The first text that is there and not empty, else the second. -/
def firstText (a b : Option String) : Option String :=
  match a with
  | some s => if s.isEmpty then b else some s
  | none => b

def firstNumber (a b : Option Int) : Option Int :=
  match a with
  | some i => if i = 0 then b else some i
  | none => b

/-- The report of a fault; what the context says comes first. -/
def ofFault (f : Fault) (severity : String) (context : Context) : Diagnostic where
  kind := f.cause.kind
  message := f.message
  severity := severity
  binary := firstText context.binary f.binary
  symbol := firstText context.symbol f.cause.symbol
  file := firstText context.file f.cause.file
  line := firstNumber context.line f.cause.line
  detail := context.detail

def toJson (d : Diagnostic) : Json :=
  .obj [("kind", .str d.kind), ("severity", .str d.severity), ("message", .str d.message),
    ("binary", .ofString? d.binary), ("symbol", .ofString? d.symbol), ("file", .ofString? d.file),
    ("line", .ofInt? d.line), ("detail", .obj d.detail)]

def counts (ds : List Diagnostic) : Table String Nat :=
  ds.foldl (fun t d => t.insert d.kind ((t.get? d.kind).getD 0 + 1)) Table.empty

def ofKind (ds : List Diagnostic) (kind : String) : List Diagnostic :=
  ds.filter fun d => d.kind = kind

end Diagnostic

end CallAtlas
