import CallAtlas.Link.Disassembler
import CallAtlas.Link.Merge
import CallAtlas.Text.Replace

/-!
# Linker backends

Buffers are joined here, after disassembling each of them, or by an external tool.
-/

namespace CallAtlas.Link

open Bitcode Tool

/-- What a backend loaded, and how linking ended. -/
structure Attempt where
  /-- The buffers that were disassembled, the last of them perhaps in vain. -/
  loaded : List Buffer := []
  result : Except Failure IrModule

/-- A way to link buffers, and the tools that it lacks. -/
structure Backend where
  name : String
  missing : List String
  link : List Buffer → Attempt

/-! ## In place -/

def textualName : String := "textual"

/-- Merges the modules of buffers in order, up to the first that fails. -/
def linkFrom (d : Disassembler) : Merger → List Buffer → Attempt
  | g, [] => { result := .ok g.dest }
  | g, b :: r =>
    match d.load b with
    | .error e => { loaded := [b], result := .error e }
    | .ok m =>
      match g.merge m with
      | .error broken =>
        { loaded := [b],
          result := .error (.fault (Fault.forBinary { cause := broken.error.cause } b.originOpt)) }
      | .ok g =>
        let rest := linkFrom d g r
        { rest with loaded := b :: rest.loaded }

def textual (d : Disassembler) : Backend := ⟨textualName, d.missing, linkFrom d (.empty "")⟩

/-! ## By an external tool -/

/-- The first place in a text where a reader succeeds. -/
def firstMatch {α : Type} (read : List Char → Option α) : List Char → Option α
  | [] => read []
  | c :: r =>
    match read (c :: r) with
    | some a => some a
    | none => firstMatch read r

def duplicateAt (s : List Char) : Option String := do
  let rest ← Text.dropHead? "Linking globals named '".toList s
  let name := rest.takeWhile (· ≠ '\'')
  let _ ← Text.dropHead? "': symbol multiply defined".toList (rest.drop name.length)
  if name.isEmpty then none else some (String.ofList name)

def mismatchAt (s : List Char) : Option String :=
  let heads := ["target triples", "data layouts"].map fun what =>
    ("warning: Linking two modules of different " ++ what).toList
  if heads.any fun h =>
    Text.startsWith h s then some (String.ofList (s.takeWhile (· ≠ '\n'))) else none

/-- The last place where a part of a text starts. -/
def lastPlace? (part : List Char) : List Char → Option Nat
  | [] => if part.isEmpty then some 0 else none
  | c :: r =>
    match lastPlace? part r with
    | some n => some (n + 1)
    | none => if Text.startsWith part (c :: r) then some 0 else none

def lastMentioned (s : List Char) (inputs : List (String × Buffer)) : Option Buffer :=
  (inputs.foldl (fun (best : Option (Nat × Buffer)) p =>
    match lastPlace? p.1.toList s, best with
    | some n, some (m, _) => if m < n then some (n, p.2) else best
    | some n, none => some (n, p.2)
    | none, _ => best) none).map Prod.snd

def inputName (host : Host) (i : Nat) : String :=
  let digits := Text.natDigits i
  Path.join host.scratch (String.ofList (List.replicate (4 - digits.length) '0' ++ digits) ++ ".bc")

def externalArguments (host : Host) (buffers : List Buffer) : List String :=
  ["-S", "-o", Path.join host.scratch "linked.ll"] ++
    (List.range buffers.length).map (inputName host)

/-- What the complaint of the external linker is about. -/
def externalCause (host : Host) (buffers : List Buffer) (complaint : String) : Cause :=
  match firstMatch duplicateAt complaint.toList with
  | some symbol =>
    let inputs := ((List.range buffers.length).map (inputName host)).zip buffers
    let second := (lastMentioned complaint.toList inputs <|> buffers.getLast?).map Buffer.identifier
    .duplicate symbol "an earlier input" (second.getD "")
  | none => .link (linkTool ++ " failed: " ++ complaint)

def linkExternally (host : Host) (tools : Toolchain) (buffers : List Buffer) :
    Except Failure IrModule := do
  let r ← tools.run host linkTool (externalArguments host buffers) none
  let complaint := r.complaint 4000
  if r.code ≠ 0 then throw (.of (externalCause host buffers complaint))
  if let some line := firstMatch mismatchAt complaint.toList then
    throw (.of (.link (String.ofList (Text.replaceAll "warning: ".toList [] line.toList))))
  match r.written with
  | none => throw (.file (.notFound (Path.join host.scratch "linked.ll")))
  | some data =>
    match IrModule.parse (String.ofList (Text.unifyBreaks (Text.decode data).toList)) "" with
    | .ok m => pure m
    | .error e => throw (.of (.link ("cannot parse " ++ linkTool ++ " output: " ++ e.message)))

def external (host : Host) (tools : Toolchain) : Backend :=
  ⟨linkTool, tools.missing host [linkTool],
    fun buffers => { result := linkExternally host tools buffers }⟩

end CallAtlas.Link
