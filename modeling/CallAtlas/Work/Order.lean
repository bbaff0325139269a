import CallAtlas.Json.Reading
import CallAtlas.Tool.Toolchain

/-!
# Work orders

The document that describes a run. All complaints are collected, in the order of the parts.
-/

namespace CallAtlas.Work

open Tool

/-- What a run is asked to do. -/
structure Order where
  roots : List String
  searchPaths : List String := []
  staticOrder : Table String (List String) := Table.empty
  /-- Name patterns of libraries to leave out, if not the usual ones. -/
  systemLibraries : Option (List String) := none
  databases : List String := []
  prefixes : Table String String := Table.empty
  preserve : List String := ["main"]
  targets : List String := []
  passes : List String := ["internalize", "globaldce"]
  linker : String := "auto"
  validator : String := "bitstream"
  maxWorkers : Option Int := none
  maxInFlight : Int := 1
  toolDirectory : Option String := none
  output : Option String := none

/-! ## Checking -/

/-- A value, or all problems that were found. -/
abbrev Checked (α : Type) := Except (List Problem) α

abbrev Location := List (String ⊕ Nat)

def complain {α : Type} (place : Location) (complaint : String) : Checked α :=
  .error [⟨place, complaint⟩]

/-- Two checks, with the problems of both. -/
def both {α β : Type} (f : Checked (α → β)) (a : Checked α) : Checked β :=
  match f, a with
  | .ok f, .ok a => .ok (f a)
  | .ok _, .error ps => .error ps
  | .error ps, .ok _ => .error ps
  | .error ps, .error qs => .error (ps ++ qs)

/-- All checks, with all problems. -/
def all {α : Type} : List (Checked α) → Checked (List α)
  | [] => .ok []
  | a :: r => both (a.map List.cons) (all r)

def checkText (place : Location) : Json → Checked String
  | .str s => if s.toList.any Text.isUnpaired then complain place "string_unicode" else .ok s
  | _ => complain place "string_type"

def checkList {α : Type} (item : Location → Json → Checked α) (place : Location) :
    Json → Checked (List α)
  | .arr items => all (items.zipIdx.map fun p => item (place ++ [.inr p.2]) p.1)
  | _ => complain place "list_type"

/-- An object as a table of checked values. -/
def checkTable {α : Type} (value : Location → Json → Checked α) (place : Location) :
    Json → Checked (Table String α)
  | .obj members =>
    (all (members.map fun m => (value (place ++ [.inl m.1]) m.2).map fun v => (m.1, v))).map
      Table.ofList
  | _ => complain place "dict_type"

def checkOption {α : Type} (value : Location → Json → Checked α) (place : Location) :
    Json → Checked (Option α)
  | .null => .ok none
  | j => (value place j).map some

def checkChoice (choices : List String) (place : Location) : Json → Checked String
  | .str s => if choices.contains s then .ok s else complain place "literal_error"
  | _ => complain place "literal_error"

/-- The text without its zeros in front, among which underscores may stand: a digit other than zero,
a minus sign or the last character ends them, and the zero before a point is kept. A text must start
with a digit or a minus sign. -/
def dropZeros? : List Char → Option (List Char)
  | '0' :: r =>
    let zeros := r.takeWhile fun c => c = '0' || c = '_'
    match r.drop zeros.length with
    | [] => some ((('0' :: zeros).getLast?).toList)
    | '.' :: rest => some ((('0' :: zeros).getLast?).toList ++ '.' :: rest)
    | c :: rest => if Text.isAsciiDigit c || c = '-' then some (c :: rest) else none
  | c :: r => if Text.isAsciiDigit c || c = '-' then some (c :: r) else none
  | [] => none

def dropPlaces (s : List Char) : List Char :=
  let whole := s.takeWhile (· ≠ '.')
  if (s.drop (whole.length + 1)).all (· = '0') then whole else s

def dropUnderscores (s : List Char) : List Char :=
  if s.head? = some '_' ∨ s.getLast? = some '_' ∨
    Text.hasPart ['_', '_'] s then s else s.filter (· ≠ '_')

/-- Reads a number in plain form: perhaps a minus sign, and digits that do not start with a zero, or
only a zero. -/
def readPlain? (s : List Char) : Option Int :=
  let (negative, digits) := match s with
    | '-' :: r => (true, r)
    | _ => (false, s)
  if digits.isEmpty || !digits.all Text.isAsciiDigit ||
    (digits.head? = some '0' && 1 < digits.length) then none
  else
    let n : Int := Text.digitsValue digits
    some (if negative then -n else n)

def dropPlus? : List Char → Option (List Char)
  | '+' :: '-' :: _ => none
  | '+' :: r => some r
  | s => some s

/-- Reads a whole number from a text: padding, a plus sign, zeros in front, zero places and
underscores are allowed. -/
def readWhole? (s : List Char) : Option Int := do
  let s ← dropPlus? (Text.dropPadding s)
  let s ← dropZeros? s
  readPlain? (dropUnderscores (dropPlaces s))

def checkWholeFloat (place : Location) (x : Float) : Checked Int :=
  match Decimal.Binary.ofFloat x with
  | .finite negative m q _ =>
    let (above, below) := Decimal.fraction m q
    if above % below ≠ 0 then complain place "int_from_float"
    else if Nat.pow 2 63 ≤ above / below then complain place "int_parsing_size"
    else .ok (if negative then -((above / below : Nat) : Int) else (above / below : Nat))
  | _ => complain place "finite_number"

def longestNumber : Nat := 4300

/-- A whole number, which a float or a text may write. -/
def checkWhole (place : Location) : Json → Checked Int
  | .num (.int i) => .ok i
  | .num (.float x) => checkWholeFloat place x
  | .bool b => .ok (if b then 1 else 0)
  | .str s =>
    if s.toList.any Text.isUnpaired then complain place "string_unicode"
    else match readWhole? s.toList with
      | some i =>
        if longestNumber < (Text.natDigits i.natAbs).length then complain place "int_parsing_size"
          else .ok i
      | none => complain place "int_parsing"
  | _ => complain place "int_type"

def checkCount (place : Location) (j : Json) : Checked Int := do
  let i ← checkWhole place j
  if i < 1 then complain place "greater_than_equal" else pure i

def checkRoots (place : Location) (j : Json) : Checked (List String) := do
  let roots ← checkList checkText place j
  if roots.isEmpty then complain place "value_error" else pure roots

/-- A member that has to be there. -/
def required {α : Type} (doc : Json) (key : String) (check : Location → Json → Checked α) :
    Checked α :=
  match doc.get? key with
  | some j => check [.inl key] j
  | none => complain [.inl key] "missing"

/-- A member with a value in case it is not there. -/
def optional {α : Type} (doc : Json) (key : String) (check : Location → Json → Checked α)
    (otherwise : α) :
    Checked α :=
  match doc.get? key with
  | some j => check [.inl key] j
  | none => .ok otherwise

namespace Order

def ofMembers (doc : Json) : Checked Order :=
  let texts := checkList checkText
  let parts : Checked _ := .ok Order.mk
  let parts := both parts (required doc "roots" checkRoots)
  let parts := both parts (optional doc "search_paths" texts [])
  let parts := both parts (optional doc "static_link_order" (checkTable texts) Table.empty)
  let parts := both parts (optional doc "system_libraries" (checkOption texts) none)
  let parts := both parts (optional doc "compile_databases" texts [])
  let parts := both parts (optional doc "path_prefix_map" (checkTable checkText) Table.empty)
  let parts := both parts (optional doc "preserve" texts ["main"])
  let parts := both parts (optional doc "targets" texts [])
  let parts := both parts (optional doc "passes" texts ["internalize", "globaldce"])
  let parts :=
    both parts (optional doc "linker" (checkChoice ["auto", "llvm-link", "textual"]) "auto")
  let parts :=
    both parts (optional doc "validator" (checkChoice ["bitstream", "llvm-bcanalyzer"]) "bitstream")
  let parts := both parts (optional doc "max_workers" (checkOption checkCount) none)
  let parts := both parts (optional doc "max_in_flight_roots" checkCount 1)
  let parts := both parts (optional doc "llvm_bin_dir" (checkOption checkText) none)
  both parts (optional doc "output" (checkOption checkText) none)

def ofJson (doc : Json) : Checked Order :=
  match doc with
  | .obj _ => ofMembers doc
  | _ => complain [] "model_type"

def load (files : FileTree) (path : String) : Except Failure Order :=
  match files.readText (Path.tidy path) with
  | .error (.file e) =>
    .error (.of (.config ("Cannot read work order " ++ path ++ ": " ++ e.message)))
  | .error e => .error e
  | .ok text =>
    match Json.parse? text with
    | none => .error (.of (.config ("Invalid JSON in " ++ path)))
    | some doc =>
      match ofJson doc with
      | .ok order => .ok order
      | .error problems => .error (.of (.workOrder path problems))

def preserved (o : Order) : List String := o.preserve.eraseDups.mergeSort (· ≤ ·)

def toolchain (o : Order) (env : String → Option String) : Except Failure Toolchain :=
  Toolchain.new env o.toolDirectory none none

def toJson (o : Order) : Json :=
  let texts := fun (ss : List String) => Json.arr (ss.map .str)
  .obj [("roots", texts o.roots), ("search_paths", texts o.searchPaths),
    ("static_link_order", .obj (o.staticOrder.entries.map fun e => (e.1, texts e.2))),
    ("system_libraries", match o.systemLibraries with
      | some ss => texts ss
      | none => .null),
    ("compile_databases", texts o.databases),
    ("path_prefix_map", .obj (o.prefixes.entries.map fun e => (e.1, .str e.2))),
    ("preserve", texts o.preserve), ("targets", texts o.targets), ("passes", texts o.passes),
    ("linker", .str o.linker), ("validator", .str o.validator),
    ("max_workers", .ofInt? o.maxWorkers),
    ("max_in_flight_roots", .int o.maxInFlight), ("llvm_bin_dir", .ofString? o.toolDirectory),
    ("output", .ofString? o.output)]

def template : Json :=
  let texts := fun (ss : List String) => Json.arr (ss.map .str)
  .obj [("roots", texts ["./build/bin/app"]), ("search_paths", texts ["./build/lib"]),
    ("static_link_order", .obj [("app", texts ["./build/lib/libutil.a"])]),
    ("compile_databases", texts ["./build/compile_commands.json"]), ("path_prefix_map", .obj []),
    ("preserve", texts ["main"]), ("targets", texts ["register_opt*"]),
    ("passes", texts ["internalize", "globaldce"]),
    ("linker", .str "auto"), ("validator", .str "bitstream"), ("max_workers", .int 4),
    ("max_in_flight_roots", .int 1), ("llvm_bin_dir", .null), ("output", .str "queries.jsonl")]

end Order

end CallAtlas.Work
