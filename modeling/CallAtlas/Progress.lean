import CallAtlas.Json.Basic

/-!
# Progress

The phases of a run in the order they began. Of phases with one root and name the latest is meant.
-/

namespace CallAtlas

inductive PhaseStatus where
  | running
  | completed
  | failed
  | skipped
  deriving DecidableEq, Repr

def PhaseStatus.name : PhaseStatus → String
  | .running => "running"
  | .completed => "completed"
  | .failed => "failed"
  | .skipped => "skipped"

/-- A phase of the work on a root. -/
structure Phase where
  phase : String
  root : String
  status : PhaseStatus
  start : Option Number := none
  stop : Option Number := none
  detail : String := ""
  error : Option String := none

/-- How long a phase took, if both times are known and not zero. -/
def Phase.duration (p : Phase) : Option Number :=
  match p.start, p.stop with
  | some a, some b => if a.isZero || b.isZero then none else some (b.sub a).roundTwo
  | _, _ => none

/-- The phases in the order of their starts. -/
structure Progress where
  phases : List Phase := []

namespace Progress

def isPhase (root phase : String) (p : Phase) : Bool := p.root = root && p.phase = phase

/-- Changes the latest phase of a root and a name in a list kept backwards. -/
def modifyLatest (root phase : String) (f : Phase → Phase) : List Phase → List Phase
  | [] => []
  | p :: r => if isPhase root phase p then f p :: r else p :: modifyLatest root phase f r

def latest? (g : Progress) (root phase : String) : Option Phase :=
  g.phases.reverse.find? (isPhase root phase)

/-- Changes the latest phase of a name. -/
def finish (g : Progress) (root phase : String) (f : Phase → Phase) : Progress :=
  ⟨(modifyLatest root phase f g.phases.reverse).reverse⟩

def start (g : Progress) (now : Number) (phase root : String) : Progress :=
  ⟨g.phases ++ [{ phase, root, status := .running, start := some now }]⟩

def complete (g : Progress) (now : Number) (phase detail root : String) : Progress :=
  g.finish root phase fun p => { p with status := .completed, stop := some now, detail }

def fail (g : Progress) (now : Number) (phase error root : String) : Progress :=
  g.finish root phase fun p => { p with status := .failed, stop := some now, error := some error }

def skip (g : Progress) (phase reason root : String) : Progress :=
  ⟨g.phases ++ [{ phase, root, status := .skipped, detail := reason }]⟩

def total (g : Progress) : Number :=
  (g.phases.foldl (fun (sum : Number) (p : Phase) =>
    match p.duration with
    | some d => sum.add (if d.isZero then .int 0 else d)
    | none => sum.add (.int 0)) (Number.int 0)).roundTwo

def phaseJson (p : Phase) : Json :=
  .obj [("phase", .str p.phase), ("root", .str p.root), ("status", .str p.status.name),
    ("duration", match p.duration with
      | some d => .num d
      | none => .null),
    ("detail", .str p.detail), ("error", .ofString? p.error)]

def summary (g : Progress) : Json :=
  .obj [("phases", .arr (g.phases.map phaseJson)), ("total_duration", .num g.total)]

end Progress

end CallAtlas
