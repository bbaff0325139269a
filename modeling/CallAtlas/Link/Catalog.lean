import CallAtlas.Handle
import CallAtlas.Link.Backend

/-!
# Choosing a backend

A backend is asked for by name, or the most precise one that lacks nothing is taken.
-/

namespace CallAtlas.Link

open Bitcode Tool

/-- A backend with its precision and speed. -/
structure Descriptor where
  name : String
  precision : Number
  speed : Number
  prerequisites : List String
  backend : Backend

/-- Backends by name. -/
abbrev Catalog := Table String Descriptor

namespace Catalog

def register (r : Catalog) (d : Descriptor) : Catalog := r.insert d.name d

def standard (host : Host) (tools : Toolchain) (d : Disassembler) : Catalog :=
  Table.ofList [
    (linkTool, ⟨linkTool, .float 0.99, .float 0.7, [linkTool], external host tools⟩),
    (textualName, ⟨textualName, .float 0.85, .float 0.5, [disassembleTool], textual d⟩)]

def byPrecision (r : Catalog) : List Descriptor :=
  r.values.mergeSort fun a b => b.precision.toFloat ≤ a.precision.toFloat

/-- The most precise backend that lacks nothing. -/
def best (r : Catalog) : Option Backend :=
  (r.byPrecision.find? fun d => d.backend.missing.isEmpty).map Descriptor.backend

/-- The backend of a name, or the best one for `auto`. -/
def create (r : Catalog) (name : String) : Except Failure Backend :=
  if name = "auto" then
    match r.best with
    | some b => .ok b
    | none => .error (.of (.toolchain "No linker backend has its prerequisites met"))
  else
    match r.get? name with
    | some d => .ok d.backend
    | none =>
      .error (.of (.config ("Unknown linker backend '" ++ name ++ "' (known: " ++
        Text.quotedList (r.keys.mergeSort (· ≤ ·)) ++ ")")))

end Catalog

/-- The buffers loaded, and a handle on the module. -/
structure Linked where
  loaded : List Buffer := []
  handle : Except Failure Handle

def nothingToLink (identifier : String) : Failure :=
  .fault ⟨.link "nothing to link", if identifier.isEmpty then none else some identifier, true⟩

/-- Links buffers under a name, or under that of the first buffer; there must be one. -/
def linkBuffers (backend : Backend) (buffers : List Buffer) (identifier : String) : Linked :=
  match buffers with
  | [] => { handle := .error (nothingToLink identifier) }
  | first :: _ =>
    let attempt := backend.link buffers
    let name := if identifier.isEmpty then first.identifier else identifier
    { loaded := attempt.loaded
      handle := attempt.result.map fun m =>
      .new { m with identifier := name } (buffers.map Buffer.identifier) }

/-- Links buffers with the backend of a name: the backend, and what it did. That there is a buffer
is checked before the backend is asked for. -/
def Catalog.link (r : Catalog) (name : String) (buffers : List Buffer) (identifier : String) :
    Except Failure (Backend × Linked) := do
  if buffers.isEmpty then throw (nothingToLink identifier)
  let backend ← r.create name
  pure (backend, linkBuffers backend buffers identifier)

end CallAtlas.Link
