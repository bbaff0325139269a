import CallAtlas.Graph.Reach
import CallAtlas.Ir.Module
import CallAtlas.Text.Quoted

/-!
# Passes

A pass says how many entities it changed. Symbols named `llvm.…` steer the compiler and are left
alone.
-/

namespace CallAtlas.Optimize

open Ir

/-- A change of a module, or a check. -/
inductive Pass where
  /-- Makes exported definitions local unless they are to be preserved. -/
  | internalize
  /-- Removes symbols that nothing alive mentions. -/
  | globalDce
  /-- Removes function declarations that nothing mentions. -/
  | stripDeadPrototypes
  /-- Checks that every mentioned symbol and every debug location exists. -/
  | verify
  deriving DecidableEq, Repr

namespace Pass

def all : List Pass := [.internalize, .globalDce, .stripDeadPrototypes, .verify]

def name : Pass → String
  | .internalize => "internalize"
  | .globalDce => "globaldce"
  | .stripDeadPrototypes => "strip-dead-prototypes"
  | .verify => "verify"

def ofName? (name : String) : Option Pass := all.find? fun p => p.name = name

end Pass

def isReserved (name : String) : Bool := name.startsWith "llvm."

/-! ## Internalization -/

def becomesLocal (preserve : List String) (s : Symbol) : Bool :=
  !s.isDeclaration && !s.isLocal && !preserve.contains s.name && !isReserved s.name &&
    s.linkage ≠ .availableExternally && s.linkage ≠ .appending

def internalizeGlobal (preserve : List String) (g : Global) : Global :=
  if becomesLocal preserve (.global g) then g.setLinkage Linkage.internal.keyword else g

def internalizeFunction (preserve : List String) (f : Function) : Function :=
  if becomesLocal preserve (.function f) then f.setLinkage Linkage.internal.keyword else f

/-- Makes symbols local that are not to be preserved. -/
def internalize (m : IrModule) (preserve : List String) : IrModule × Nat :=
  ({ m with
      globals := m.globals.map (internalizeGlobal preserve)
      functions := m.functions.map (internalizeFunction preserve) },
    (m.definitions.filter (becomesLocal preserve)).length)

/-! ## Removal of unreachable symbols -/

/-- The comdat group of the symbol of a name; an empty group is none. -/
def groupOf? (m : IrModule) (name : String) : Option String :=
  ((m.symbol? name).bind Symbol.comdat).filter fun g => !g.isEmpty

def groupMembers (m : IrModule) (group : String) : List String :=
  m.symbolNames.filter fun n => groupOf? m n = some group

/-- What a live symbol keeps alive: its references and its group. -/
def keepsAlive (m : IrModule) (name : String) : List String :=
  m.referencesOf name ++
    match groupOf? m name with
    | some g => groupMembers m g
    | none => []

def isRoot (preserve : List String) (s : Symbol) : Bool :=
  preserve.contains s.name || isReserved s.name || (!s.isLocal && !s.linkage.isDiscardable)

def liveRoots (m : IrModule) (preserve : List String) : List String :=
  (m.definitions.filter (isRoot preserve)).map Symbol.name ++ preserve

/-- What is reachable from the roots. -/
def liveSymbols (m : IrModule) (preserve : List String) : List String :=
  Graph.reachable m.symbolNames (keepsAlive m) (liveRoots m preserve)

def restrictSymbols (m : IrModule) (live : List String) : IrModule :=
  { m with
    functions := m.functions.filter fun n _ => live.contains n
    globals := m.globals.filter fun n _ => live.contains n }

def dropUnusedGroups (m : IrModule) : IrModule :=
  let used := m.symbolNames.filterMap (groupOf? m)
  { m with comdats := m.comdats.filter fun n _ => used.contains n }

/-- Removes what is not live. -/
def globalDce (m : IrModule) (preserve : List String) : IrModule × Nat :=
  let live := liveSymbols m preserve
  (dropUnusedGroups (restrictSymbols m live),
    (m.symbolNames.filter fun n => !live.contains n).length)

/-! ## Removal of unused declarations -/

/-- Removes declarations that nothing refers to. -/
def stripDeadPrototypes (m : IrModule) (preserve : List String) : IrModule × Nat :=
  let mentioned := m.symbolNames.flatMap m.referencesOf
  let isDead := fun (f : Function) =>
    f.isDeclaration && !mentioned.contains f.name && !preserve.contains f.name
  ({ m with functions := m.functions.filter fun _ f => !isDead f },
    (m.functions.values.filter isDead).length)

/-! ## Verification -/

def missingReferences (m : IrModule) (name : String) : List String :=
  ((m.referencesOf name).filter fun r => (m.symbol? r).isNone).mergeSort (· ≤ ·)

def missingDebug? (m : IrModule) (f : Function) : Option Nat :=
  (f.instructions.filterMap Instruction.debug).find? fun d => !m.metadata.contains d

/-- What is wrong with a module: mentioned symbols that it does not have, symbols in order of their
names, and, if it has metadata, one missing debug location for each function. -/
def verifyProblems (m : IrModule) : List String :=
  ((m.symbolNames.mergeSort (· ≤ ·)).filterMap fun n =>
    match missingReferences m n with
    | [] => none
    | missing => some ("@" ++ n ++ " references undefined " ++ Text.quotedList missing)) ++
  if m.metadata.isEmpty then []
  else m.functions.values.filterMap fun f =>
    (missingDebug? m f).map fun d =>
      "@" ++ f.name ++ " has a !dbg !" ++ String.ofList (Text.natDigits d) ++ " with no node"

def problemText (problems : List String) : String :=
  "; ".intercalate (problems.take 10) ++ if 10 < problems.length then " ..." else ""

/-- Runs a pass: the module and how much changed, or a complaint. -/
def Pass.run (p : Pass) (m : IrModule) (preserve : List String) : Except String (IrModule × Nat) :=
  match p with
  | .internalize => .ok (Optimize.internalize m preserve)
  | .globalDce => .ok (Optimize.globalDce m preserve)
  | .stripDeadPrototypes => .ok (Optimize.stripDeadPrototypes m preserve)
  | .verify =>
    match verifyProblems m with
    | [] => .ok (m, 0)
    | problems => .error (problemText problems)

end CallAtlas.Optimize
