import CallAtlas.Loader.Needs
import CallAtlas.Graph.BreadthFirst
import CallAtlas.Text.Glob

/-!
# Dependencies of binaries

The binaries that a root needs, breadth first. Before that, all that can be reached is visited depth
first, so that a cycle or a library that cannot be found is reported with the path that leads to it.
-/

namespace CallAtlas.Loader

open Container

def defaultSystemLibraries : List String :=
  ["libc.so*", "libm.so*", "libdl.so*", "librt.so*", "libpthread.so*", "ld-linux*.so*",
    "libgcc_s.so*",
   "libstdc++.so*", "libc++.so*", "libc++abi.so*", "linux-vdso.so*"]

/-- Where libraries are looked for; `longestChain` bounds the visit. -/
structure Search where
  files : FileTree
  needs : Needs
  searchPaths : List String := []
  staticOrder : Table String (List String) := Table.empty
  systemLibraries : List String := defaultSystemLibraries
  longestChain : Nat := 1000

/-- The dependencies and orders found so far, and who was asked. -/
structure Memory where
  direct : Table String (List Binary) := Table.empty
  orders : Table String (List Binary) := Table.empty
  asked : List Binary := []

def keyOf (b : Binary) : String := Path.normalize b.path

/-- Runs a step over a list on one state, up to the first failure. -/
def forEach {σ α ε : Type} (f : σ → α → σ × Except ε Unit) : σ → List α → σ × Except ε Unit
  | s, [] => (s, .ok ())
  | s, a :: r =>
    match f s a with
    | (s, .ok ()) => forEach f s r
    | (s, .error e) => (s, .error e)

namespace Search

/-- The fixed dependencies of a binary: by its path, the normal form of it, or the file name. -/
def staticNeeds (r : Search) (b : Binary) : List String :=
  ([b.path, keyOf b, b.name].findSome? r.staticOrder.get?).getD []

def isSystem (r : Search) (name : String) : Bool :=
  r.systemLibraries.any fun pattern => Text.globMatches pattern (Path.baseName name)

/-- Finds a needed library. A name with a slash is a path; others are looked for in the directories
that the binary names and then in those of the search. -/
def locate (r : Search) (requester : Binary) (name : String) : Except Failure String :=
  if name.toList.contains '/' then
    let path := Path.normalize name
    if r.files.isFile path then .ok path
    else .error (.of (.unlocated name requester.path [Path.directoryName path]))
  else
    let searched := r.needs.searchPaths requester ++ r.searchPaths
    match (searched.map fun d => Path.join d name).find? r.files.isFile with
    | some path => .ok (Path.normalize path)
    | none => .error (.of (.unlocated name requester.path searched))

def addPath (r : Search) (deps : List Binary) (path : String) : Except Failure (List Binary) :=
  if deps.any fun d => keyOf d = path then .ok deps
  else do pure (deps ++ [← Binary.ofPath r.files path])

def neededNames (r : Search) (b : Binary) : List String :=
  (r.staticNeeds b ++ r.needs.needed b).filter fun name => !r.isSystem name

/-- The binaries that one needs, in order. -/
def dependencies (r : Search) (b : Binary) : Except Failure (List Binary) :=
  match r.needs.refuses b with
  | some e => .error e
  | none => (r.neededNames b).foldlM (fun deps name => do r.addPath deps (← r.locate b name)) []

/-- The dependencies of a binary, computed once. -/
def remembered (r : Search) (m : Memory) (b : Binary) : Memory × Except Failure (List Binary) :=
  match m.direct.get? (keyOf b) with
  | some deps => (m, .ok deps)
  | none =>
    let m := { m with asked := m.asked ++ [b] }
    match r.dependencies b with
    | .ok deps => ({ m with direct := m.direct.insert (keyOf b) deps }, .ok deps)
    | .error e => (m, .error e)

/-- What is remembered, and the keys that are done. -/
structure Visit where
  memory : Memory
  done : List String := []

/-- Visits a binary and all it needs, depth first, where `path` holds the keys that lead to it. The
count bounds the chains that are followed. -/
def visit (r : Search) : Nat → List String → Visit → Binary → Visit × Except Failure Unit
  | 0, _, s, _ => (s, .error .tooDeep)
  | fuel + 1, path, s, b =>
    let key := keyOf b
    if s.done.contains key then (s, .ok ())
    else if path.contains key then (s, .error (.of (.cycle (path.dropWhile (· ≠ key) ++ [key]))))
    else
      match r.remembered s.memory b with
      | (m, .error e) => ({ s with memory := m }, .error e)
      | (m, .ok deps) =>
        match forEach (r.visit fuel (path ++ [key])) { s with memory := m } deps with
        | (s, .ok ()) => ({ s with done := key :: s.done }, .ok ())
        | (s, .error e) => (s, .error e)

/-- The dependencies of a root, level by level. -/
def order (m : Memory) (root : Binary) : List Binary :=
  Graph.breadthFirst m.direct.keys keyOf (fun b => (m.direct.get? (keyOf b)).getD []) [root]
    [keyOf root]

/-- The dependencies of a root; a cycle is a fault. -/
def resolve (r : Search) (m : Memory) (root : Binary) : Memory × Except Failure (List Binary) :=
  match m.orders.get? (keyOf root) with
  | some found => (m, .ok found)
  | none =>
    match r.visit r.longestChain [] ⟨m, []⟩ root with
    | (s, .error e) => (s.memory, .error e)
    | (s, .ok ()) =>
      let found := order s.memory root
      ({ s.memory with orders := s.memory.orders.insert (keyOf root) found }, .ok found)

def resolvePath (r : Search) (m : Memory) (path : String) : Memory × Except Failure (List Binary) :=
  match Binary.ofPath r.files path with
  | .error e => (m, .error e)
  | .ok root => r.resolve m root

end Search

end CallAtlas.Loader
