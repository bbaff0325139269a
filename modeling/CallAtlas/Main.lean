import CallAtlas.Cli.Commands

/-!
# The program

Takes a picture of the files below the current directory, carries the command line out on it, and
writes the files that changed.
-/

open CallAtlas

namespace CallAtlas.Shell

def variableNames : List String := ["ZBB_LLVM_BIN", "ZBB_LLVM_SUFFIX", "ZBB_TOOL_TIMEOUT"]

def readEnvironment : IO (List (String × String)) := do
  let values ← variableNames.mapM fun name => do pure ((← IO.getEnv name).map fun v => (name, v))
  pure (values.filterMap id)

def readFiles : IO FileTree := do
  let here ← IO.currentDir
  let current := here.components.filter fun c => !c.isEmpty && c ≠ "/"
  let mut files : List (List String × FileTree.File) := []
  let mut directories : List (List String) := []
  for path in ← here.walkDir do
    let place := path.components.filter fun c => !c.isEmpty && c ≠ "/"
    if ← path.isDir then
      directories := place :: directories
    else
      let data ← IO.FS.readBinFile path
      files := (place, { data := data.toList }) :: files
  pure { files := Table.ofList files.reverse, directories := directories.reverse, current }

def writeFiles (before after : FileTree) : IO Unit := do
  for place in after.directories do
    IO.FS.createDirAll ("/" ++ "/".intercalate place)
  for (place, file) in after.files.entries do
    if before.files.get? place ≠ some file then
      IO.FS.writeBinFile ("/" ++ "/".intercalate place) (ByteArray.mk file.data.toArray)

def newName : IO String := do pure (Bytes.toHex (← IO.getRandomBytes 6).toList)

def finish : Cli.Ending → IO UInt32
  | .exit code => pure code.toUInt32
  | .usage => do
    IO.eprintln Cli.usageLine
    pure 2
  | .crash e => do
    match e with
    | .invalid message => IO.eprintln message
    | .file f => IO.eprintln f.message
    | .fault f => IO.eprintln f.message
    | _ => IO.eprintln "unreadable input"
    pure 1

end CallAtlas.Shell

def main (args : List String) : IO UInt32 := do
  let env ← Shell.readEnvironment
  let files ← Shell.readFiles
  let host : Tool.Host := { files, env := fun name => Table.find name env }
  let o := Cli.main host (← Shell.newName) args
  IO.print o.stdout
  IO.eprint o.stderr
  Shell.writeFiles files o.files
  Shell.finish o.ending
