import CallAtlas.FileTree

/-!
# The host

What the surroundings of a run provide, as a value. The answer of a program depends on its command
and input alone.
-/

namespace CallAtlas.Tool

structure Invocation where
  command : List String
  input : Option Bytes := none
  deriving DecidableEq, Repr

structure Reply where
  code : Int := 0
  stdout : Bytes := []
  stderr : Bytes := []
  written : Option Bytes := none
  deriving DecidableEq, Repr

inductive Outcome where
  | finished (r : Reply)
  | timedOut
  | notStarted (reason : String)
  deriving DecidableEq, Repr

/-- What a run finds around it; `depth` is how far it may descend into what is nested. -/
structure Host where
  files : FileTree := {}
  env : String → Option String := fun _ => none
  which : String → Option String := fun _ => none
  run : Invocation → Outcome := fun _ => .notStarted "no programs"
  scratch : String := "<tmp>"
  depth : Nat := 500

/-- The end of what a program wrote to standard error: at most `limit` characters, without blanks
around. -/
def Reply.complaint (r : Reply) (limit : Nat) : String :=
  let s := (Text.decode r.stderr).toList
  String.ofList (Text.trim (s.drop (s.length - limit)))

end CallAtlas.Tool
