import CallAtlas.Decimal.Reading
import CallAtlas.Number
import CallAtlas.Tool.Host

/-! # The toolchain -/

namespace CallAtlas.Tool

def linkTool : String := "llvm-link"

def disassembleTool : String := "llvm-dis"

def analyzeTool : String := "llvm-bcanalyzer"

def copyTool : String := "llvm-objcopy"

/-- Where tools are looked for, and how long one may take. -/
structure Toolchain where
  directory : Option String := none
  suffix : String := ""
  timeout : Number := .float 600.0

def versions : List Nat := [21, 20, 19, 18, 17, 16, 15, 14, 13, 12, 11]

namespace Toolchain

def new (env : String → Option String) (directory suffix : Option String)
    (timeout : Option Number) :
    Except Failure Toolchain := do
  let directory := directory <|> env "ZBB_LLVM_BIN"
  let suffix := (suffix <|> env "ZBB_LLVM_SUFFIX").getD ""
  match timeout with
  | some t => pure ⟨directory, suffix, t⟩
  | none =>
    match env "ZBB_TOOL_TIMEOUT" with
    | none => pure ⟨directory, suffix, .float 600.0⟩
    | some s =>
      match Decimal.readFloat? s.toList with
      | some t => pure ⟨directory, suffix, .float t⟩
      | none => throw (.invalid ("could not convert string to float: " ++ Text.quoted s))

def givenDirectory (t : Toolchain) : Option String := t.directory.filter fun d => !d.isEmpty

/-- The names that a tool may have, in the order of the search. -/
def names (t : Toolchain) (tool : String) : List String :=
  (if t.suffix.isEmpty then [] else [tool ++ t.suffix]) ++
    tool :: versions.map fun v => tool ++ "-" ++ toString v

def find (t : Toolchain) (host : Host) (tool : String) : Option String :=
  match t.givenDirectory with
  | some d =>
    ([tool ++ t.suffix, tool].map fun name => Path.tidy (Path.join d name)).find? fun p =>
      host.files.isFile p && host.files.isExecutable p
  | none => (t.names tool).findSome? host.which

def require (t : Toolchain) (host : Host) (tool : String) : Except Failure String :=
  match t.find host tool with
  | some p => .ok p
  | none => .error (.of (.toolchain (tool ++ " not found in " ++ t.givenDirectory.getD "PATH")))

def missing (t : Toolchain) (host : Host) (tools : List String) : List String :=
  tools.filter fun tool => (t.find host tool).isNone

def invocation (t : Toolchain) (host : Host) (tool : String) (args : List String)
    (input : Option Bytes) :
    Except Failure Invocation := do
  pure ⟨(← t.require host tool) :: args, input⟩

def run (t : Toolchain) (host : Host) (tool : String) (args : List String) (input : Option Bytes) :
    Except Failure Reply := do
  match host.run (← t.invocation host tool args input) with
  | .finished r => pure r
  | .timedOut =>
    throw (.of (.toolchain (tool ++ " timed out after " ++ t.timeout.render Decimal.plain ++ "s")))
  | .notStarted reason => throw (.of (.toolchain ("Failed to start " ++ tool ++ ": " ++ reason)))

end Toolchain

end CallAtlas.Tool
