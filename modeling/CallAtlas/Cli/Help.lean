import CallAtlas.Cli.Arguments

/-! # Help -/

namespace CallAtlas.Cli

abbrev HelpRow := String × String

structure Help where
  usage : String
  purpose : String
  brief : String
  options : List HelpRow

def widestEntry : Nat := 30

def blanks (n : Nat) : String := String.ofList (List.replicate n ' ')

def renderRow (column : Nat) (row : HelpRow) : String :=
  let gap :=
    if row.1.length + 2 ≤ column then blanks (column - row.1.length) else "\n" ++
      blanks (column + 2)
  "  " ++ row.1 ++ gap ++ row.2 ++ "\n"

def renderTable (title : String) (rows : List HelpRow) : String :=
  let widest := (rows.map fun r => r.1.length).foldl max 0
  "\n" ++ title ++ ":\n" ++ String.join (rows.map (renderRow (min widest widestEntry + 2)))

def programName : String := "main"

def helpRow : HelpRow := ("--help", "Show this message and exit.")

def usageLine : String := "Usage: " ++ programName ++ " [OPTIONS] COMMAND [ARGS]..."

def helps : List (String × Help) := [
  ("compdb", {
    usage := "DATABASES..."
    purpose := "Merge compilation databases and report conflicts."
    brief := "Merge compilation databases and report conflicts."
    options := [("--lookup TEXT", "Print the cleaned flags for FILE")] }),
  ("create-work", {
    usage := ""
    purpose := "Generate a work order template JSON file."
    brief := "Generate a work order template JSON file."
    options := [("-o, --output TEXT", "Output file path")] }),
  ("deps", {
    usage := "BINARY"
    purpose := "Print BINARY's transitive dependencies in loader order."
    brief := "Print BINARY's transitive dependencies in loader order."
    options := [("--search-path TEXT", "Library search directory")] }),
  ("extract", {
    usage := "BINARY"
    purpose := "List (and optionally dump) the bitcode modules embedded in BINARY."
    brief := "List (and optionally dump) the bitcode modules embedded in..."
    options := [("-o, --output-dir TEXT", "Write each module as a .bc file here"),
      ("--validator [bitstream|llvm-bcanalyzer]", "Module well-formedness check")] }),
  ("run", {
    usage := "WORK_FILE"
    purpose := "Execute the pipeline from a work order JSON file."
    brief := "Execute the pipeline from a work order JSON file."
    options := [("-o, --output TEXT", "JSONL output (overrides the work order)"),
      ("--log-dir TEXT", "Write per-phase logs under this directory")] }),
  ("scan", {
    usage := "IR_FILE"
    purpose := "List call sites of a textual IR module (e.g. llvm-link -S output)."
    brief := "List call sites of a textual IR module (e.g."
    options := [("--target TEXT", "Callee name or glob (repeatable)")] })]

def programHelp : String :=
  usageLine ++ "\n\n  Z-Bitcode-Bridge: map call sites in embedded bitcode back to source.\n" ++
    renderTable "Options" [("-v, --verbose", "Verbose logging"), helpRow] ++
    renderTable "Commands" (helps.map fun h => (h.1, h.2.brief))

def commandHelp (name : String) : String :=
  match helps.lookup name with
  | none => programHelp
  | some h =>
    "Usage: " ++ programName ++ " " ++ name ++ " [OPTIONS]" ++
      (if h.usage.isEmpty then "" else " " ++ h.usage) ++
      "\n\n  " ++ h.purpose ++ "\n" ++ renderTable "Options" (h.options ++ [helpRow])

end CallAtlas.Cli
