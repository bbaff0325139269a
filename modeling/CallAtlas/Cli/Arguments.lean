/-!
# Command-line arguments

A long option has its value attached with an equals sign or as the next argument; short options can
be joined, and a value may follow its letter directly.
-/

namespace CallAtlas.Cli

structure OptionSpec where
  long : String
  short : Option Char := none
  takesValue : Bool := true
  deriving DecidableEq, Repr

/-- The options and arguments of a command line. -/
structure Parsed where
  options : List (String × String) := []
  positional : List String := []
  deriving DecidableEq, Repr

namespace Parsed

def values (p : Parsed) (long : String) : List String :=
  (p.options.filter fun o => o.1 = long).map Prod.snd

def value? (p : Parsed) (long : String) : Option String := (p.values long).getLast?

def has (p : Parsed) (long : String) : Bool := p.options.any fun o => o.1 = long

end Parsed

abbrev Taken := List (String × String) × List String

def takeLong (specs : List OptionSpec) (name : String) (attached : Option String)
    (rest : List String) :
    Option Taken :=
  (specs.find? fun s => s.long = name).bind fun s =>
    match s.takesValue, attached, rest with
    | true, some v, _ => some ([(s.long, v)], rest)
    | true, none, v :: r => some ([(s.long, v)], r)
    | true, none, [] => none
    | false, some _, _ => none
    | false, none, _ => some ([(s.long, "")], rest)

def takeShort (specs : List OptionSpec) : List Char → List String → Option Taken
  | [], rest => some ([], rest)
  | c :: cs, rest =>
    (specs.find? fun s => s.short = some c).bind fun s =>
      if s.takesValue then
        match cs, rest with
        | _ :: _, _ => some ([(s.long, String.ofList cs)], rest)
        | [], v :: r => some ([(s.long, v)], r)
        | [], [] => none
      else (takeShort specs cs rest).map fun t => ((s.long, "") :: t.1, t.2)

def takeOptions (specs : List OptionSpec) (arg : String) (rest : List String) : Option Taken :=
  let name := String.ofList (arg.toList.takeWhile (· ≠ '='))
  let attached :=
    if arg.toList.contains '=' then some (String.ofList ((arg.toList.dropWhile (· ≠ '=')).drop 1))
      else none
  if arg.startsWith "--" then takeLong specs name attached rest
  else takeShort specs (arg.toList.drop 1) rest

/-- Takes arguments apart; `mixed` says whether options may follow positional arguments. The count
bounds the arguments looked at, and `none` means that they do not fit. -/
def parseFrom (specs : List OptionSpec) (mixed : Bool) : Nat → List String → Option Parsed
  | 0, args => some { positional := args }
  | _, [] => some {}
  | fuel + 1, arg :: rest =>
    if arg = "--" then some { positional := rest }
    else if arg.startsWith "-" && arg ≠ "-" then do
      let (options, rest) ← takeOptions specs arg rest
      let p ← parseFrom specs mixed fuel rest
      pure { p with options := options ++ p.options }
    else if mixed then do
      let p ← parseFrom specs mixed fuel rest
      pure { p with positional := arg :: p.positional }
    else some { positional := arg :: rest }

def parseArguments (specs : List OptionSpec) (mixed : Bool) (args : List String) : Option Parsed :=
  parseFrom specs mixed args.length args

end CallAtlas.Cli
