import CallAtlas.Text.Quoted

/-!
# Faults

A wrong dependency model stops the whole run, a fault of a binary stops the work on its root, and a
fault of a call site skips that site. Other failures are mistakes of the caller or of the
surroundings.
-/

namespace CallAtlas

/-- What is wrong at a place of a document. -/
structure Problem where
  location : List (String ⊕ Nat)
  complaint : String
  deriving DecidableEq, Repr

/-- What a fault is about. -/
inductive Cause where
  | general (message : String)
  | toolchain (message : String)
  | config (message : String)
  | workOrder (path : String) (problems : List Problem)
  | pipeline (message : String)
  | stale (message : String)
  | run (message : String)
  | cycle (path : List String)
  | unlocated (name requester : String) (searched : List String)
  | binary (message : String)
  | noSection (message : String)
  | malformed (reason : String) (offset : Option Int)
  | link (message : String)
  | duplicate (symbol first second : String)
  | optimization (message : String) (pass : Option String)
  | site (message : String) (file : Option String) (line : Option Int)
  | noCommand (path : String)
  | unresolved (message : String) (file : Option String) (line : Option Int)
  deriving DecidableEq, Repr

/-- A cause, and the binary that it is about. -/
structure Fault where
  cause : Cause
  binary : Option String := none
  /-- Whether the message names the binary; it does not if the binary became known later. -/
  named : Bool := true
  deriving DecidableEq, Repr

namespace Cause

def kind : Cause → String
  | .general _ | .run _ | .binary _ | .site .. => "error"
  | .toolchain _ => "toolchain-error"
  | .config _ | .workOrder .. => "config-error"
  | .pipeline _ => "pipeline-config-error"
  | .stale _ => "stale-module"
  | .cycle _ => "cyclic-dependency"
  | .unlocated .. => "unresolved-dependency"
  | .noSection _ => "section-not-found"
  | .malformed .. => "malformed-module"
  | .link _ => "link-error"
  | .duplicate .. => "duplicate-symbol"
  | .optimization .. => "optimization-failed"
  | .noCommand _ => "no-compile-entry"
  | .unresolved .. => "unresolved-source"

def text : Cause → String
  | .general m | .toolchain m | .config m | .pipeline m | .stale m | .run m | .binary m
    | .noSection m
  | .link m | .site m .. | .unresolved m .. => m
  | .workOrder path _ => "Invalid work order " ++ path
  | .cycle path => "Dependency cycle: " ++ " -> ".intercalate path
  | .unlocated name requester searched =>
    "Cannot locate '" ++ name ++ "' needed by " ++ requester ++
      " (searched: " ++ Text.quotedList searched ++ ")"
  | .malformed reason none => reason
  | .malformed reason (some offset) =>
    reason ++ " (at byte offset " ++ String.ofList (Text.intDigits offset) ++ ")"
  | .duplicate symbol first second =>
    "Symbol '" ++ symbol ++ "' defined in both " ++ first ++ " and " ++ second
  | .optimization m pass =>
    match pass with
    | some p => if p.isEmpty then m else "[" ++ p ++ "] " ++ m
    | none => m
  | .noCommand path => "No compile command for " ++ path

def stopsRun : Cause → Bool
  | .run _ | .cycle _ | .unlocated .. => true
  | _ => false

def stopsRoot : Cause → Bool
  | .binary _ | .noSection _ | .malformed .. | .link _ | .duplicate .. | .optimization .. => true
  | _ => false

def skipsSite : Cause → Bool
  | .site .. | .noCommand _ | .unresolved .. => true
  | _ => false

def symbol : Cause → Option String
  | .duplicate s .. => some s
  | _ => none

def file : Cause → Option String
  | .site _ f _ | .unresolved _ f _ => f
  | .noCommand path => some path
  | _ => none

def line : Cause → Option Int
  | .site _ _ l | .unresolved _ _ l => l
  | _ => none

end Cause

namespace Fault

/-- The wording of a fault: the binary, if the message names it, and the cause. -/
def message (f : Fault) : String :=
  match f.binary with
  | some b => if f.named && !b.isEmpty then b ++ ": " ++ f.cause.text else f.cause.text
  | none => f.cause.text

def forBinary (f : Fault) (binary : Option String) : Fault :=
  if f.binary.isNone then { f with binary, named := false } else f

end Fault

/-- What the file system complains about. -/
inductive FileError where
  | notFound (path : String)
  | isDirectory (path : String)
  | notDirectory (path : String)
  | nameTooLong (path : String)
  | alreadyThere (path : String)
  deriving DecidableEq, Repr

def FileError.message : FileError → String
  | .notFound p => "[Errno 2] No such file or directory: " ++ Text.quoted p
  | .isDirectory p => "[Errno 21] Is a directory: " ++ Text.quoted p
  | .notDirectory p => "[Errno 20] Not a directory: " ++ Text.quoted p
  | .nameTooLong p => "[Errno 36] File name too long: " ++ Text.quoted p
  | .alreadyThere p => "[Errno 17] File exists: " ++ Text.quoted p

/-- How work can fail. -/
inductive Failure where
  | fault (f : Fault)
  | invalid (message : String)
  | notInteger
  | missingKey
  | outOfRange
  | wrongType
  | notText
  | noTexts
  | tooFar
  | corrupt
  | file (e : FileError)
  | notUtf8
  | tooDeep
  /-- Nothing fails, but the work never comes to an end. -/
  | endless
  deriving DecidableEq, Repr

def Failure.of (cause : Cause) : Failure := .fault { cause }

end CallAtlas
