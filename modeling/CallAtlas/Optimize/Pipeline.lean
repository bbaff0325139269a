import CallAtlas.Handle
import CallAtlas.Optimize.Pass

/-!
# Pipelines

Removing unreachable symbols before making definitions local would remove nothing, so that order is
refused.
-/

namespace CallAtlas.Optimize

/-- Passes in order. -/
structure Pipeline where
  passes : List Pass
  deriving DecidableEq, Repr

namespace Pipeline

def defaultNames : List String := [Pass.internalize.name, Pass.globalDce.name]

def position? (names : List String) (name : String) : Option Nat := names.findIdx? (· = name)

/-- Whether symbols would be removed before any is local. -/
def removesTooEarly (names : List String) : Bool :=
  match position? names Pass.globalDce.name, position? names Pass.internalize.name with
  | some i, some j => i < j
  | _, _ => false

def ofNames (names : List String) : Except Failure Pipeline :=
  let unknown := names.filter fun n => (Pass.ofName? n).isNone
  if unknown ≠ [] then
    .error (.of (.pipeline ("Unknown pass(es) " ++ Text.quotedList unknown ++ "; available: " ++
      Text.quotedList ((Pass.all.map Pass.name).mergeSort (· ≤ ·)))))
  else if removesTooEarly names then
    .error (.of (.pipeline "globaldce must run after internalize, otherwise nothing is removable"))
  else .ok ⟨names.filterMap Pass.ofName?⟩

def names (p : Pipeline) : List String := p.passes.map Pass.name

def closed (p : Pipeline) : List Pass :=
  if p.passes.getLast? = some .verify then p.passes else p.passes ++ [.verify]

/-- Runs passes up to one that complains. -/
def runPasses (preserve : List String) : List Pass → IrModule → IrModule × Option (Pass × String)
  | [], m => (m, none)
  | p :: ps, m =>
    match p.run m preserve with
    | .ok (m, _) => runPasses preserve ps m
    | .error complaint => (m, some (p, complaint))

/-- Optimizes the module of a handle. Whether the passes succeed or not, the handle is as free
afterwards as before. -/
def run (p : Pipeline) (h : Handle) (preserve : List String) : Handle × Except Failure Unit :=
  match h.acquire "optimize" with
  | .error e => (h, .error e)
  | .ok (held, m) =>
    let (m, failed) := runPasses preserve p.closed m
    let held := { held with module := some m }
    let free := match held.release "optimize" with
      | .ok h => h
      | .error _ => held
    match failed with
    | none => (free, .ok ())
    | some (pass, complaint) =>
      (free, .error (.fault ⟨.optimization complaint (some pass.name), some h.identifier, false⟩))

end Pipeline

end CallAtlas.Optimize
