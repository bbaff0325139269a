import CallAtlas.Compile.Database
import CallAtlas.Proofs.Table

/-!
# Every command is accounted for

The documents that are added to a database hold entries, and the well-formed entries are commands.
Of the commands of one file the first is kept, and each later one is compared with it: it is a
duplicate or a conflict. `Accounts` says this of a list of commands, in order; one more command
keeps it (`Accounts.add`), so it holds whatever documents are added. Where a document ends does not
matter but for the labels that the commands carry: `unlabelled_addAll`.
-/

namespace CallAtlas.Compile

open List

variable {map : PathMap}

/-! ## Documents -/

structure Document where
  body : Json
  database : String

/-- The entries of a document; what is no sequence has none. -/
def Document.entries (doc : Document) : List Json := (sequence doc.body).toOption.getD []

/-- Whether nothing in an entry is of a wrong type; it need not have a file. -/
def readable (map : PathMap) (entry : Json) : Bool := (Command.ofEntry map "" entry).isOk

def commandOf (map : PathMap) (database : String) (entry : Json) : Option Command :=
  (Command.ofEntry map database entry).toOption.join

/-- The commands of a document: those of its well-formed entries. An entry with something of a wrong
type ends it. -/
def Document.commands (map : PathMap) (doc : Document) : List Command :=
  (doc.entries.takeWhile (readable map)).filterMap (commandOf map doc.database)

namespace Database

def addAll (d : Database) (documents : List Document) : Database :=
  documents.foldl (fun d doc => (d.addDocument doc.body doc.database).1) d

@[simp] theorem map_add (d : Database) (c : Command) : (d.add c).map = d.map := by
  unfold add
  split
  · rfl
  · split <;> rfl

@[simp] theorem map_foldl_add (d : Database) (cs : List Command) :
    (cs.foldl add d).map = d.map := by
  induction cs generalizing d with
  | nil => rfl
  | cons c cs ih => rw [foldl_cons, ih, map_add]

end Database

theorem ofEntry_eq (map : PathMap) (database : String) (entry : Json) :
    Command.ofEntry map database entry =
      (Command.ofEntry map "" entry).map (Option.map fun c => { c with database }) := by
  unfold Command.ofEntry
  cases entry.get? "file" with
  | none => rfl
  | some file =>
    cases argumentsOf entry with
    | error e => rfl
    | ok arguments =>
      cases directoryOf entry with
      | error e => rfl
      | ok directory => cases file <;> rfl

theorem ofEntry_of_readable {entry : Json} (h : readable map entry) (database : String) :
    Command.ofEntry map database entry = .ok (commandOf map database entry) := by
  unfold readable at h
  unfold commandOf
  rw [ofEntry_eq]
  cases he : Command.ofEntry map "" entry with
  | error e => rw [he] at h; cases h
  | ok c => rfl

theorem ofEntry_of_not_readable {entry : Json} (h : ¬ readable map entry) (database : String) :
    ∃ e, Command.ofEntry map database entry = .error e := by
  unfold readable at h
  rw [ofEntry_eq]
  cases he : Command.ofEntry map "" entry with
  | error e => exact ⟨e, rfl⟩
  | ok c => rw [he] at h; exact absurd rfl h

namespace Database

theorem addEntries_eq (database : String) (d : Database) (entries : List Json) :
    (addEntries database d entries).1 =
      ((entries.takeWhile (readable d.map)).filterMap (commandOf d.map database)).foldl add d := by
  induction entries generalizing d with
  | nil => rfl
  | cons entry entries ih =>
    by_cases h : readable d.map entry
    · rw [takeWhile_cons_of_pos h, addEntries, ofEntry_of_readable h]
      cases hc : commandOf d.map database entry with
      | none =>
        rw [filterMap_cons_none hc]
        exact ih d
      | some c =>
        rw [filterMap_cons_some hc, foldl_cons]
        show (addEntries database (d.add c) entries).1 = _
        rw [ih (d.add c), map_add]
    · obtain ⟨e, he⟩ := ofEntry_of_not_readable h database
      rw [takeWhile_cons_of_neg h, addEntries, he]
      rfl

theorem addDocument_eq (d : Database) (doc : Document) :
    (d.addDocument doc.body doc.database).1 = (doc.commands d.map).foldl add d := by
  unfold addDocument Document.commands Document.entries
  cases sequence doc.body with
  | error e => rfl
  | ok entries => exact addEntries_eq doc.database d entries

theorem addAll_eq (d : Database) (documents : List Document) :
    d.addAll documents = (documents.flatMap (Document.commands d.map)).foldl add d := by
  unfold addAll
  induction documents generalizing d with
  | nil => rfl
  | cons doc documents ih =>
    rw [foldl_cons, ih, addDocument_eq, flatMap_cons, foldl_append, map_foldl_add]

end Database

/-! ## First and later commands -/

def first? (cs : List Command) (file : String) : Option Command := cs.find? fun c => c.file = file

/-- The commands that stand behind another one of their file, in order. -/
def later (cs : List Command) : List Command :=
  (cs.zipIdx.filter fun p => (cs.take p.2).any fun b => b.file = p.1.file).map Prod.fst

def repeats (cs : List Command) (c : Command) : Bool :=
  (first? cs c.file).any fun kept => Json.sameItems kept.arguments c.arguments

/-- The conflict of a later command with the first one of its file. -/
def conflict? (cs : List Command) (c : Command) : Option Conflict :=
  if repeats cs c then none else (first? cs c.file).map fun kept => ⟨c.file, kept, c⟩

section commands

variable {cs : List Command} {c : Command} {file : String}

theorem first?_snoc (cs : List Command) (c : Command) (file : String) :
    first? (cs ++ [c]) file = (first? cs file).or (if c.file = file then some c else none) := by
  unfold first?
  rw [find?_append, find?_singleton]
  simp only [decide_eq_true_eq]

theorem first?_snoc_of_isSome (h : (first? cs file).isSome) :
    first? (cs ++ [c]) file = first? cs file := by
  obtain ⟨kept, hk⟩ := Option.isSome_iff_exists.1 h
  rw [first?_snoc, hk]
  rfl

theorem any_file (cs : List Command) (file : String) :
    (cs.any fun b => b.file = file) = (first? cs file).isSome := by
  rw [Bool.eq_iff_iff, any_eq_true, first?, find?_isSome]

theorem later_snoc (cs : List Command) (c : Command) :
    later (cs ++ [c]) = later cs ++ if (first? cs c.file).isSome then [c] else [] := by
  have hold : (cs.zipIdx.filter fun p => ((cs ++ [c]).take p.2).any fun b => b.file = p.1.file) =
      cs.zipIdx.filter fun p => (cs.take p.2).any fun b => b.file = p.1.file := by
    refine filter_congr fun p hp => ?_
    have hlt : p.2 < cs.length := by simpa using snd_lt_of_mem_zipIdx hp
    rw [take_append_of_le_length hlt.le]
  unfold later
  rw [zipIdx_append, filter_append, map_append, hold]
  rw [zipIdx_singleton, filter_singleton, zero_add, take_left, any_file]
  cases (first? cs c.file).isSome <;> rfl

theorem isSome_first?_of_mem_later (h : c ∈ later cs) : (first? cs c.file).isSome := by
  obtain ⟨p, hp, rfl⟩ := mem_map.1 h
  obtain ⟨-, hany⟩ := mem_filter.1 hp
  rw [← any_file]
  obtain ⟨b, hb, hf⟩ := any_eq_true.1 hany
  exact any_eq_true.2 ⟨b, mem_of_mem_take hb, hf⟩

/-- One more command changes nothing in what later commands are compared with. -/
theorem repeats_snoc (h : (first? cs c.file).isSome) (c' : Command) :
    repeats (cs ++ [c']) c = repeats cs c := by
  unfold repeats
  rw [first?_snoc_of_isSome h]

theorem conflict?_snoc (h : (first? cs c.file).isSome) (c' : Command) :
    conflict? (cs ++ [c']) c = conflict? cs c := by
  unfold conflict?
  rw [repeats_snoc h, first?_snoc_of_isSome h]

theorem countP_repeats_snoc (cs : List Command) (c : Command) :
    (later (cs ++ [c])).countP (repeats (cs ++ [c])) =
      (later cs).countP (repeats cs) + if repeats cs c then 1 else 0 := by
  rw [later_snoc, countP_append,
    countP_congr fun c' hc' => by rw [repeats_snoc (isSome_first?_of_mem_later hc')]]
  cases hf : (first? cs c.file).isSome with
  | true => rw [if_pos rfl, countP_singleton, repeats_snoc hf]
  | false =>
    have hr : repeats cs c = false := by
      rw [repeats, Option.isSome_eq_false_iff.1 hf |> Option.isNone_iff_eq_none.1]
      rfl
    rw [hr]
    rfl

theorem filterMap_conflict?_snoc (cs : List Command) (c : Command) :
    (later (cs ++ [c])).filterMap (conflict? (cs ++ [c])) =
      (later cs).filterMap (conflict? cs) ++ (conflict? cs c).toList := by
  rw [later_snoc, filterMap_append,
    filterMap_congr fun c' hc' => conflict?_snoc (isSome_first?_of_mem_later hc') c]
  cases hf : (first? cs c.file).isSome with
  | true =>
    rw [if_pos rfl, filterMap_cons, conflict?_snoc hf]
    cases conflict? cs c <;> rfl
  | false =>
    have hc : conflict? cs c = none := by
      rw [conflict?, Option.isSome_eq_false_iff.1 hf |> Option.isNone_iff_eq_none.1]
      exact ite_self _
    rw [hc]
    rfl

end commands

/-! ## The account -/

structure Accounts (cs : List Command) (d : Database) : Prop where
  /-- The first command of each file is kept. -/
  kept : ∀ file, d.entries.get? file = first? cs file
  /-- Later commands with the arguments of the first are counted. -/
  duplicates : d.duplicates = (later cs).countP (repeats cs)
  /-- Later commands with other arguments are listed, each with the first. -/
  conflicts : d.conflicts = (later cs).filterMap (conflict? cs)
  /-- Each of them was reported. -/
  reports : d.diagnostics = d.conflicts.map Conflict.diagnostic
  /-- No command is lost and none counts twice. -/
  total : d.entries.size + d.duplicates + d.conflicts.length = cs.length

theorem Accounts.empty (map : PathMap) : Accounts [] { map } := ⟨fun _ => rfl, rfl, rfl, rfl, rfl⟩

theorem size_insert_new {t : Table String Command} {k : String} (h : t.get? k = none)
    (c : Command) :
    (t.insert k c).size = t.size + 1 := by
  show (Table.write k c t.entries).length = t.entries.length + 1
  rw [Table.write_new (Table.get?_eq_none.1 h), length_append, length_singleton]

theorem Accounts.add {cs : List Command} {d : Database} (h : Accounts cs d) (c : Command) :
    Accounts (cs ++ [c]) (d.add c) := by
  have htotal := h.total
  have hlength : (cs ++ [c]).length = cs.length + 1 := length_append
  cases hf : first? cs c.file with
  | none =>
    have hget : d.entries.get? c.file = none := (h.kept c.file).trans hf
    have hadd : d.add c = { d with entries := d.entries.insert c.file c } := by
      rw [Database.add, hget]
    have hrepeats : repeats cs c = false := by rw [repeats, hf]; rfl
    have hconflict : conflict? cs c = none := by rw [conflict?, hrepeats, hf]; rfl
    rw [hadd]
    refine ⟨fun file => ?_, ?_, ?_, h.reports, ?_⟩
    · rw [Table.get?_insert, first?_snoc, h.kept file]
      split_ifs with hfile
      · rw [← hfile, hf]
        rfl
      · rw [Option.or_none]
    · rw [countP_repeats_snoc, hrepeats]
      exact h.duplicates
    · rw [filterMap_conflict?_snoc, hconflict]
      exact h.conflicts.trans (append_nil _).symm
    · show (d.entries.insert c.file c).size + d.duplicates + d.conflicts.length = _
      rw [size_insert_new hget]
      omega
  | some kept =>
    have hget : d.entries.get? c.file = some kept := (h.kept c.file).trans hf
    have hkept : ∀ file, d.entries.get? file = first? (cs ++ [c]) file := by
      intro file
      rw [h.kept file, first?_snoc]
      split_ifs with hfile
      · rw [← hfile, hf]
        rfl
      · rw [Option.or_none]
    have hrepeats : repeats cs c = Json.sameItems kept.arguments c.arguments := by
      rw [repeats, hf]; rfl
    cases hs : Json.sameItems kept.arguments c.arguments with
    | true =>
      have hadd : d.add c = { d with duplicates := d.duplicates + 1 } := by
        rw [Database.add, hget]; exact if_pos hs
      have hconflict : conflict? cs c = none := by rw [conflict?, hrepeats, hs]; rfl
      rw [hadd]
      refine ⟨hkept, ?_, ?_, h.reports, ?_⟩
      · rw [countP_repeats_snoc, hrepeats, hs, ← h.duplicates]
        rfl
      · rw [filterMap_conflict?_snoc, hconflict]
        exact h.conflicts.trans (append_nil _).symm
      · show d.entries.size + (d.duplicates + 1) + d.conflicts.length = _
        omega
    | false =>
      have hadd : d.add c = { d with
          conflicts := d.conflicts ++ [⟨c.file, kept, c⟩]
          diagnostics := d.diagnostics ++ [Conflict.diagnostic ⟨c.file, kept, c⟩] } := by
        rw [Database.add, hget]
        exact if_neg (by rw [hs]; simp)
      have hconflict : conflict? cs c = some ⟨c.file, kept, c⟩ := by
        rw [conflict?, hrepeats, hs, hf]
        rfl
      rw [hadd]
      refine ⟨hkept, ?_, ?_, ?_, ?_⟩
      · rw [countP_repeats_snoc, hrepeats, hs]
        exact h.duplicates
      · rw [filterMap_conflict?_snoc, hconflict, ← h.conflicts]
        rfl
      · show d.diagnostics ++ [_] = (d.conflicts ++ [_]).map Conflict.diagnostic
        rw [h.reports, map_append, map_singleton]
      · show d.entries.size + d.duplicates + (d.conflicts ++ [_]).length = _
        rw [length_append, length_singleton, hlength]
        omega

theorem accounts_foldl_add (map : PathMap) (cs : List Command) :
    Accounts cs (cs.foldl Database.add { map }) := by
  induction cs using reverseRecOn with
  | nil => exact .empty map
  | append_singleton cs c ih =>
    rw [foldl_append]
    exact ih.add c

/-! ## Labels -/

def Command.unlabelled (c : Command) : Command := { c with database := "" }

def Conflict.unlabelled (k : Conflict) : Conflict :=
  ⟨k.file, k.kept.unlabelled, k.ignored.unlabelled⟩

/-- The report of a conflict without the names of the two databases. -/
def unlabelledReport (r : Diagnostic) : Diagnostic :=
  { r with detail := r.detail.map fun m => (m.1, .str "") }

def Database.unlabelled (d : Database) : Database :=
  { d with
    entries := d.entries.map Command.unlabelled
    conflicts := d.conflicts.map Conflict.unlabelled
    diagnostics := d.diagnostics.map unlabelledReport }

theorem unlabelled_add (d : Database) (c : Command) :
    (d.add c).unlabelled = d.unlabelled.add c.unlabelled := by
  unfold Database.add
  rw [show d.unlabelled.entries.get? c.unlabelled.file =
    (d.entries.get? c.file).map Command.unlabelled from
    Table.get?_map ..]
  cases d.entries.get? c.file with
  | none =>
    simp only [Database.unlabelled, Table.map_insert]
    rfl
  | some kept =>
    show Database.unlabelled (if Json.sameItems kept.arguments c.arguments then _ else _) =
      if Json.sameItems kept.arguments c.arguments then _ else _
    split_ifs
    · rfl
    · simp only [Database.unlabelled, map_append]
      rfl

theorem unlabelled_foldl_add (d : Database) (cs : List Command) :
    (cs.foldl Database.add d).unlabelled = (cs.map Command.unlabelled).foldl Database.add
      d.unlabelled := by
  induction cs generalizing d with
  | nil => rfl
  | cons c cs ih => rw [foldl_cons, ih, unlabelled_add, map_cons, foldl_cons]

theorem unlabelled_commandOf (map : PathMap) (database : String) (entry : Json) :
    (commandOf map database entry).map Command.unlabelled = commandOf map "" entry := by
  unfold commandOf
  rw [ofEntry_eq map database, ofEntry_eq map "" entry]
  cases Command.ofEntry map "" entry with
  | error e => rfl
  | ok c => cases c <;> rfl

theorem unlabelled_commands {doc : Document} (h : ∀ e ∈ doc.entries, readable map e) :
    (doc.commands map).map Command.unlabelled = doc.entries.filterMap (commandOf map "") := by
  unfold Document.commands
  rw [takeWhile_eq_self_iff.2 h, map_filterMap]
  exact filterMap_congr fun e _ => unlabelled_commandOf map doc.database e

theorem unlabelled_addAll (d : Database) {documents : List Document}
    (h : ∀ e ∈ documents.flatMap Document.entries, readable d.map e) :
    (d.addAll documents).unlabelled =
      ((documents.flatMap Document.entries).filterMap (commandOf d.map "")).foldl Database.add
        d.unlabelled := by
  have hcommands : (documents.flatMap (Document.commands d.map)).map Command.unlabelled =
      (documents.flatMap Document.entries).filterMap (commandOf d.map "") := by
    rw [map_flatMap, filterMap_flatMap]
    refine flatMap_congr fun doc hdoc => unlabelled_commands fun e he => ?_
    exact h e (mem_flatMap.2 ⟨doc, hdoc, he⟩)
  rw [Database.addAll_eq, unlabelled_foldl_add, hcommands]

/-! ## The whole account -/

def Database.ofDocuments (prefixes : List (String × String)) (documents : List Document) :
    Database :=
  (empty prefixes).addAll documents

/-- Entries for one file under three spellings and with two kinds of arguments, one entry that is no
object and one without a file. -/
def sampleEntries : List Json :=
  [.obj [("directory", .str "/src/app"), ("file", .str "main.c"),
    ("arguments", .arr [.str "cc", .str "-O0"])], .str "nonsense",
    .obj [("file", .str "/mnt/src/app/main.c"), ("command", .str "cc '-O2'")],
    .obj [("directory", .str "/src/app")],
    .obj [("directory", .str "/src"), ("file", .str "./lib/../app/main.c"),
      ("command", .str "cc -O0")],
    .obj [("directory", .str "/src"), ("file", .str "app/main.c"),
      ("arguments", .arr [.str "cc", .str "-O2"])],
    .obj [("directory", .str "/src"), ("file", .str "app/other.c"), ("command", .str "cc -O2")]]

def sampleDocuments : List Document :=
  [⟨.arr (sampleEntries.take 3), "one"⟩, ⟨.arr (sampleEntries.drop 3), "two"⟩]

end CallAtlas.Compile
