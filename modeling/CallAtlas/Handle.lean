import CallAtlas.Fault
import CallAtlas.Ir.Module

/-!
# Module handles

A module goes from stage to stage in a handle that one stage holds at a time, and may acquire again;
it is free once every acquisition has been released.
-/

namespace CallAtlas

/-- A module and the stage that holds it. -/
structure Handle where
  module : Option IrModule
  identifier : String
  sources : List String
  owner : Option String
  holds : Nat
  deriving DecidableEq

namespace Handle

def new (m : IrModule) (sources : List String) : Handle := ⟨some m, m.identifier, sources, none, 0⟩

def isClosed (h : Handle) : Bool := h.module.isNone

def stale (h : Handle) (what : String) : Failure := .of (.stale (h.identifier ++ ": " ++ what))

/-- Holds the module for a stage. -/
def acquire (h : Handle) (stage : String) : Except Failure (Handle × IrModule) :=
  match h.module with
  | none => .error (h.stale "module already discarded")
  | some m =>
    match h.owner with
    | none => .ok ({ h with owner := some stage, holds := 1 }, m)
    | some o =>
      if o = stage then .ok ({ h with holds := h.holds + 1 }, m)
      else .error (h.stale ("held by '" ++ o ++ "', cannot acquire for '" ++ stage ++ "'"))

/-- Gives up one acquisition. -/
def release (h : Handle) (stage : String) : Except Failure Handle :=
  if h.owner = some stage then
    let holds := h.holds - 1
    .ok { h with holds, owner := if holds = 0 then none else h.owner }
  else .error (h.stale ("'" ++ stage ++ "' released a handle it does not hold"))

def ir (h : Handle) : Except Failure IrModule :=
  match h.module, h.owner with
  | none, _ => .error (h.stale "module already discarded")
  | some _, none => .error (h.stale "accessed without acquiring")
  | some m, some _ => .ok m

/-- Runs a piece of work while a stage holds the handle: the handle afterwards, as held as
before. -/
def owned {α : Type} (h : Handle) (stage : String) (work : Handle → IrModule → Except Failure α) :
    Handle × Except Failure α :=
  match h.acquire stage with
  | .error e => (h, .error e)
  | .ok (held, m) =>
    match held.release stage with
    | .ok free => (free, work held m)
    | .error e => (held, .error e)

def close (h : Handle) : Handle := { h with module := none, owner := none, holds := 0 }

def describe (h : Handle) : String :=
  let state :=
    if h.isClosed then "closed"
    else match h.owner with
      | some o => if o.isEmpty then "released" else o
      | none => "released"
  "BitcodeModule(" ++ Text.quoted h.identifier ++ ", " ++ state ++ ")"

end Handle

end CallAtlas
