import CallAtlas.Compile.Command

/-!
# Flags for reading one file

The compiler, flags that only the build needs, and the file itself are left out.
-/

namespace CallAtlas.Compile

def flagsWithArgument : List String := ["-o", "-MF", "-MT", "-MQ", "-MJ"]

def standaloneFlags : List String :=
  ["-c", "-S", "-E", "-MD", "-MMD", "-MP", "-MG", "-M", "-MM", "-pipe", "-save-temps"]

def flagHeads : List String :=
  ["-fcrash-diagnostics-dir", "--serialize-diagnostics", "-fmodules-cache-path=",
    "-fprofile-generate",
   "-fprofile-use=", "-fprofile-instr-generate", "-fprofile-instr-use="]

def sourceExtensions : List String :=
  [".c", ".cc", ".cpp", ".cxx", ".c++", ".m", ".mm", ".i", ".ii", ".s", ".S"]

/-- Whether a text is one line, perhaps with its line feed, and not empty. -/
def isOneLine (s : List Char) : Bool :=
  let line := if s.getLast? = some '\n' then s.dropLast else s
  line ≠ [] && !line.contains '\n'

def isAttached (token : String) : Bool :=
  flagsWithArgument.any fun f => token.startsWith f && isOneLine (token.toList.drop f.length)

def isBuildFlag (token : String) : Bool :=
  standaloneFlags.contains token || isAttached token || flagHeads.any fun h => token.startsWith h

def namesSource (map : PathMap) (c : Command) (token : String) : Bool :=
  !token.startsWith "-" && sourceExtensions.contains (Path.extension token) &&
    (token = c.file || token = Path.baseName c.file || map.normalize token c.directory = c.file)

/-- The tokens that matter. All that are looked at must be texts. -/
def cleanTokens (map : PathMap) (c : Command) : List Json → Except Failure (List String)
  | [] => .ok []
  | .str token :: r =>
    if flagsWithArgument.contains token then cleanTokens map c (r.drop 1)
    else if isBuildFlag token || namesSource map c token then cleanTokens map c r
    else (cleanTokens map c r).map (token :: ·)
  | _ :: _ => .error .wrongType
termination_by tokens => tokens.length
decreasing_by all_goals (simp; try omega)

def Command.flags (map : PathMap) (c : Command) : Except Failure (List String) :=
  cleanTokens map c (c.arguments.drop 1)

end CallAtlas.Compile
