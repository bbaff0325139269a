import CallAtlas.Proofs.Compile.Accounting
import CallAtlas.Proofs.Compile.Database
import CallAtlas.Proofs.Path

/-!
# Moved source trees, by components

The map of moved trees compares and cuts spellings. `Remapped` says what it is for: the longest old
place at or above a path gives the path its new place. The two agree where old places have names and
one that lies below another is spelled longer, `normalize_remapped`. A path that has been moved
stays where it is if old and new places are apart, `normalize_twice`; then a database finds its
files under their own keys.
-/

namespace CallAtlas.Path

open List

variable {p q : String} {cs rest : List String} {absolute : Bool}

/-- The root of a path and the names behind it. -/
def parts (p : String) : List String := root p :: normalComponents p

theorem parts_normalize (p : String) : parts (normalize p) = parts p := by
  rw [parts, root_normalize, normalComponents_normalize, parts]

/-- More text keeps the root of a path with names. -/
theorem root_append_of_names (h : normalComponents p ≠ []) (x : String) :
    root (p ++ x) = root p := by
  obtain ⟨c, hc, d, hd, hslash⟩ := exists_char h fun _ => mem_normalComponents
  have hp : d ∈ p.toList := by
    rw [← intercalate_components p]
    exact mem_intercalate.2 (.inl ⟨c, (normalComponents_sublist p).subset hc, hd⟩)
  have hstarts (u : String) (hu : ∀ e ∈ u.toList, e = '/') : (p ++ x).startsWith u =
      p.startsWith u := by
    rw [Bool.eq_iff_iff, String.startsWith_string_iff, String.startsWith_string_iff,
      String.toList_append]
    refine ⟨fun h => ?_, fun h => h.trans (prefix_append ..)⟩
    rcases prefix_or_prefix_of_prefix h (prefix_append p.toList x.toList) with h | h
    · exact h
    · exact absurd (hu d (h.subset hp)) hslash
  unfold root
  rw [hstarts "//" (by simp), hstarts "///" (by simp), hstarts "/" (by simp)]

theorem normalize_named (h : normalComponents p ≠ []) :
    normalize p = root p ++ "/".intercalate (normalComponents p) :=
  rooted_eq h fun _ => mem_normalComponents

/-- What stands behind a place in the spelling of a path below it. -/
def behind (rest : List String) : String := if rest = [] then "" else "/" ++ "/".intercalate rest

theorem normalize_below (hp : normalComponents p ≠ []) (h : parts q = parts p ++ rest) :
    normalize q = normalize p ++ behind rest := by
  obtain ⟨hroot, hq⟩ : root q = root p ∧ normalComponents q = normalComponents p ++ rest :=
    cons.inj h
  rw [normalize_named hp, normalize_named (by simp [hq, hp]), hroot, hq, behind]
  split_ifs with hr
  · rw [hr, append_nil, String.append_empty]
  · rw [String.intercalate_append_of_ne_nil hp hr]
    simp only [String.append_assoc]

/-- Dots stand only behind dots. -/
theorem IsNormal.dots {us vs : List String} (h : IsNormal absolute (us ++ vs)) (hd : ".." ∈ us) :
    ∀ c ∈ vs, c = ".." := by
  induction us with
  | nil => cases hd
  | cons u us ih =>
    obtain ⟨-, hu, hr⟩ := h
    rcases mem_cons.1 hd with rfl | hd
    · exact fun c hc => (hu rfl).2 c (mem_append_right _ hc)
    · exact ih hr hd

theorem dots_of_append (h : normalComponents p = cs ++ rest) (hne : cs ≠ []) (hd : ".." ∈ rest) :
    ".." ∈ cs := by
  have hn : IsNormal (isAbsolute p) (rest.reverse ++ cs.reverse) := by
    rw [← reverse_append, ← h, normalComponents, reverse_reverse]
    exact isNormal_foldl (components p) isNormal_nil
  obtain ⟨c, hc⟩ := exists_mem_of_ne_nil cs hne
  rwa [hn.dots (mem_reverse.2 hd) c (mem_reverse.2 hc)] at hc

theorem foldl_addComponent_solid (h : ∀ c ∈ rest, isSolid c ∧ c ≠ "..") (acc : List String) :
    rest.foldl (addComponent absolute) acc = rest.reverse ++ acc := by
  induction rest generalizing acc with
  | nil => rfl
  | cons c rest ih =>
    obtain ⟨hc, hrest⟩ := forall_mem_cons.1 h
    rw [foldl_cons, addComponent_of_solid hc.1 hc.2, ih hrest, reverse_cons, append_assoc,
      singleton_append]

theorem parts_behind (hp : normalComponents p ≠ [])
    (hrest : ∀ c ∈ rest, (isSolid c ∧ Slashless c) ∧ c ≠ "..") :
    parts (p ++ behind rest) = parts p ++ rest := by
  have hroot := root_append_of_names hp (behind rest)
  rw [parts, hroot, parts, cons_append, normalComponents, isAbsolute_eq_of_root hroot, behind]
  split_ifs with hr
  · rw [hr, String.append_empty, append_nil, normalComponents]
  · rw [← String.append_assoc, components_append,
      components_intercalate hr fun c hc => (hrest c hc).1.2, foldl_append,
      foldl_addComponent_solid fun c hc => ⟨(hrest c hc).1.1, (hrest c hc).2⟩, reverse_append,
      reverse_reverse, normalComponents]

end CallAtlas.Path

namespace CallAtlas.Compile.PathMap

open List

open CallAtlas.Path (parts behind)

variable {p q : String} {es : List (String × String)}

/-! ## Places above paths -/

theorem dropSlashes_normalize (hp : Path.normalComponents p ≠ []) :
    dropSlashes (Path.normalize p) = Path.normalize p := by
  obtain ⟨cs, c, hcs⟩ := (eq_nil_or_concat' _).resolve_left hp
  obtain ⟨hsolid, hslash⟩ := Path.mem_normalComponents (p := p) (c := c) (by simp [hcs])
  obtain ⟨r, d, hd⟩ := (eq_nil_or_concat' c.toList).resolve_left (Path.toList_ne_nil hsolid)
  have hend : ∃ y, (Path.normalize p).toList = y ++ [d] := by
    rw [Path.normalize_named hp, hcs]
    by_cases h : cs = []
    · exact ⟨(Path.root p).toList ++ r, by simp [h, hd]⟩
    · refine ⟨(Path.root p ++ "/".intercalate cs ++ "/").toList ++ r, ?_⟩
      rw [String.intercalate_append_of_ne_nil h (cons_ne_nil c [])]
      simp [hd]
  obtain ⟨y, hy⟩ := hend
  have hslash : d ≠ '/' := fun he => hslash (by simp [hd, he])
  rw [dropSlashes, hy, reverse_append, reverse_singleton, singleton_append,
    dropWhile_cons_of_neg (by simpa using hslash), reverse_cons, reverse_reverse, ← hy,
    String.ofList_toList]

/-- A place with names covers the paths that it is a prefix of by components. -/
theorem covers_iff (hp : Path.normalComponents p ≠ []) :
    covers (Path.normalize p) (Path.normalize q) ↔ parts p <+: parts q := by
  rw [covers, dropSlashes_normalize hp, Bool.or_eq_true, decide_eq_true_eq,
    String.startsWith_string_iff]
  constructor
  · rintro (h | ⟨x, hx⟩)
    · rw [← Path.parts_normalize q, h, Path.parts_normalize]
    · have hq : Path.normalize q = Path.normalize p ++ "/" ++ String.ofList x := by
        rw [← String.toList_inj, String.toList_append, String.toList_ofList, hx]
      have hroot : Path.root q = Path.root p := by
        rw [← Path.root_normalize, hq, String.append_assoc,
          Path.root_append_of_names (by rwa [Path.normalComponents_normalize]), Path.root_normalize]
      rw [parts, parts, hroot, ← Path.filter_components_normalize q, hq, Path.components_append,
        filter_append, Path.filter_components_normalize, ← cons_append]
      exact prefix_append ..
  · rintro ⟨rest, h⟩
    have hq := Path.normalize_below hp h.symm
    by_cases hr : rest = []
    · left
      rw [hq, behind, if_pos hr, String.append_empty]
    · right
      exact ⟨("/".intercalate rest).toList, by simp [hq, behind, hr]⟩

/-- The entry that is taken is spelled longest of those that fit. -/
theorem find?_ofList {P : String × String → Bool} {e : String × String}
    (h : (ofList es).entries.find? P = some e) :
    e ∈ es ∧ P e ∧ ∀ e' ∈ es, P e' → e'.1.length ≤ e.1.length := by
  obtain ⟨hP, as, bs, hsort, has⟩ := find?_eq_some_iff_append.1 h
  have hpair : (ofList es).entries.Pairwise fun a b => decide (b.1.length ≤ a.1.length) = true :=
    pairwise_mergeSort (fun a b c hab hbc => by simp only [decide_eq_true_eq] at *; omega)
      (fun a b => by simp; omega) es
  refine ⟨mem_mergeSort.1 (mem_of_find?_eq_some h), hP, fun e' he' hP' => ?_⟩
  have hmem : e' ∈ as ++ e :: bs := hsort ▸ mem_mergeSort.2 he'
  rcases mem_append.1 hmem with ha | ha
  · exact absurd hP' (by simpa using has e' ha)
  · rw [hsort] at hpair
    rcases mem_cons.1 ha with rfl | ha
    · exact le_rfl
    · exact of_decide_eq_true (rel_of_pairwise_cons (pairwise_append.1 hpair).2.1 ha)

/-- Where a map of places with names moves a path: the entry whose old place is spelled longest of
those above it. -/
theorem move_cases (h : ∀ e ∈ es, Path.normalComponents e.1 ≠ []) (q : String) :
    (∃ e ∈ es, ∃ rest, parts q = parts e.1 ++ rest ∧
      (∀ e' ∈ es, parts e'.1 <+: parts q → e'.1.length ≤ e.1.length) ∧
      (ofList es).move (Path.normalize q) = Path.normalize (e.2 ++ behind rest)) ∨
    (∀ e ∈ es, ¬ parts e.1 <+: parts q) ∧
    (ofList es).move (Path.normalize q) = Path.normalize q := by
  unfold move
  cases hfind : (ofList es).entries.find? fun e =>
    covers (Path.normalize e.1) (Path.normalize q) with
  | some e =>
    obtain ⟨he, hcovers, hlongest⟩ := find?_ofList hfind
    obtain ⟨rest, hrest⟩ := (covers_iff (h e he)).1 hcovers
    refine .inl ⟨e, he, rest, hrest.symm,
      fun e' he' habove => hlongest e' he' ((covers_iff (h e' he')).2 habove), ?_⟩
    show Path.normalize (e.2 ++ _) = _
    rw [Path.normalize_below (h e he) hrest.symm, String.toList_append, ← String.length_toList,
      drop_left, String.ofList_toList]
  | none =>
    refine .inr ⟨fun e he habove => ?_, rfl⟩
    exact find?_eq_none.1 hfind e (mem_mergeSort.2 he) ((covers_iff (h e he)).2 habove)

theorem joined_eq (path directory : String) : ∃ q, joined path directory = Path.normalize q := by
  unfold joined
  split_ifs
  · exact ⟨path, rfl⟩
  · exact ⟨Path.join directory path, rfl⟩

/-! ## Moving by components -/

/-- What the map of moved trees is for. -/
def Remapped (es : List (String × String)) (path answer : String) : Prop :=
  (∃ e ∈ es, ∃ rest, parts path = parts e.1 ++ rest ∧
      (∀ e' ∈ es, parts e'.1 <+: parts path → (parts e'.1).length ≤ (parts e.1).length) ∧
      answer = Path.normalize (e.2 ++ behind rest)) ∨
    (∀ e ∈ es, ¬ parts e.1 <+: parts path) ∧ answer = path

/-- Old places have names, and one that lies below another is spelled longer. -/
def Orderly (es : List (String × String)) : Prop :=
  ∀ e ∈ es, Path.normalComponents e.1 ≠ [] ∧
    ∀ e' ∈ es, parts e.1 <+: parts e'.1 → parts e.1 ≠ parts e'.1 → e.1.length < e'.1.length

instance (es : List (String × String)) : Decidable (Orderly es) := decidableBAll ..

/-- An orderly map moves paths by components. -/
theorem normalize_remapped (h : Orderly es) (path directory : String) :
    Remapped es (joined path directory) ((ofList es).normalize path directory) := by
  obtain ⟨q, hq⟩ := joined_eq path directory
  rw [normalize, hq]
  unfold Remapped
  rw [Path.parts_normalize]
  rcases move_cases (fun e he => (h e he).1) q with ⟨e, he, rest, hrest, hlongest, hmove⟩ | hnone
  · refine .inl ⟨e, he, rest, hrest, fun e' he' habove => ?_, hmove⟩
    -- of two places above one path the lower one is spelled longer
    by_contra hlen
    have hbelow : parts e.1 <+: parts e'.1 :=
      prefix_of_prefix_length_le ⟨rest, hrest.symm⟩ habove (by omega)
    have hlonger := (h e he).2 e' he' hbelow fun heq => hlen (by rw [heq])
    exact absurd (hlongest e' he' habove) (by omega)
  · exact .inr hnone

theorem vendor_remapped : Orderly [("/src", "/mnt/src"), ("/src/vendor/", "/opt")] ∧
    Remapped [("/src", "/mnt/src"), ("/src/vendor/", "/opt")] (joined "a.c" "/src/vendor")
      ((ofList [("/src", "/mnt/src"), ("/src/vendor/", "/opt")]).normalize "a.c"
        "/src/vendor") := by
  have h : Orderly [("/src", "/mnt/src"), ("/src/vendor/", "/opt")] := by decide +kernel
  exact ⟨h, normalize_remapped h "a.c" "/src/vendor"⟩

/-- The root is cut with its slash, and a place with more slashes comes before one below it. -/
theorem spelling_counts : (ofList [("/", "/mnt")]).normalize "/x" "" = "/mntx" ∧
    Remapped [("/", "/mnt")] (joined "/x" "") "/mnt/x" ∧
    (ofList [("/a//////", "/y"), ("/a/b", "/x")]).normalize "/a/b/c" "" = "/y/b/c" ∧
    Remapped [("/a//////", "/y"), ("/a/b", "/x")] (joined "/a/b/c" "") "/x/c" := by
  have hlong : ofList [("/a//////", "/y"), ("/a/b", "/x")] =
      ⟨[("/a//////", "/y"), ("/a/b", "/x")]⟩ :=
    congrArg mk (mergeSort_of_pairwise (by decide))
  rw [hlong]
  refine ⟨by decide +kernel, .inl ⟨("/", "/mnt"), by decide, ["x"], ?_⟩, by decide +kernel,
    .inl ⟨("/a/b", "/x"), by decide, ["c"], ?_⟩⟩
  · decide +kernel
  · decide +kernel

/-! ## Moving twice -/

/-- Old and new places have names, and no old place lies at, above or below a new one. -/
def Apart (es : List (String × String)) : Prop :=
  ∀ e ∈ es, Path.normalComponents e.1 ≠ [] ∧ ".." ∉ Path.normalComponents e.1 ∧
    Path.normalComponents e.2 ≠ [] ∧
    ∀ e' ∈ es, ¬ parts e'.1 <+: parts e.2 ∧ ¬ parts e.2 <+: parts e'.1

instance (es : List (String × String)) : Decidable (Apart es) := decidableBAll ..

theorem move_move (h : Apart es) (q : String) :
    ∃ p, (ofList es).move (Path.normalize q) = Path.normalize p ∧
    (ofList es).move (Path.normalize p) = Path.normalize p := by
  have hnamed : ∀ e ∈ es, Path.normalComponents e.1 ≠ [] := fun e he => (h e he).1
  rcases move_cases hnamed q with ⟨e, he, rest, hrest, -, hmove⟩ | ⟨-, hmove⟩
  · obtain ⟨hold, hdots, hnew, hapart⟩ := h e he
    have hq : Path.normalComponents q = Path.normalComponents e.1 ++ rest := (cons.inj hrest).2
    have hparts : parts (e.2 ++ behind rest) = parts e.2 ++ rest := by
      refine Path.parts_behind hnew fun c hc =>
        ⟨Path.mem_normalComponents (hq ▸ mem_append_right _ hc), ?_⟩
      rintro rfl
      exact hdots (Path.dots_of_append hq hold hc)
    refine ⟨e.2 ++ behind rest, hmove, ?_⟩
    rcases move_cases hnamed (e.2 ++ behind rest) with ⟨e', he', rest', hrest', -⟩ | ⟨-, hmove'⟩
    · -- a place above the moved path lies above the new place or below it
      have habove : parts e'.1 <+: parts e.2 ++ rest := ⟨rest', by rw [← hrest', hparts]⟩
      rcases prefix_or_prefix_of_prefix habove (prefix_append _ rest) with hp | hp
      · exact absurd hp (hapart e' he').1
      · exact absurd hp (hapart e' he').2
    · exact hmove'
  · exact ⟨q, hmove, hmove⟩

theorem normalize_twice (h : Apart es) (path directory : String) :
    (ofList es).normalize ((ofList es).normalize path directory) "" =
      (ofList es).normalize path directory := by
  obtain ⟨q, hq⟩ := joined_eq path directory
  obtain ⟨p, hp, hmove⟩ := move_move h q
  have hjoined : joined (Path.normalize p) "" = Path.normalize p := by
    rw [joined, if_pos (by decide), Path.normalize_normalize]
  rw [normalize, normalize, hq, hp, hjoined, hmove]

end CallAtlas.Compile.PathMap

namespace CallAtlas.Compile

open List

variable {es : List (String × String)} {documents : List Document} {c : Command} {file : String}

theorem ofEntry_eq_some {map : PathMap} {database : String} {entry : Json}
    (h : Command.ofEntry map database entry = .ok (some c)) : ∃ path arguments directory,
      entry.get? "file" = some (.str path) ∧ argumentsOf entry = .ok arguments ∧
      directoryOf entry = .ok directory ∧ c.file = map.normalize path directory ∧
      c.directory = if directory.isEmpty then "" else map.normalize directory "" := by
  unfold Command.ofEntry at h
  cases hf : entry.get? "file" with
  | none => rw [hf] at h; cases h
  | some file =>
    rw [hf] at h
    cases ha : argumentsOf entry with
    | error e => rw [ha] at h; cases h
    | ok arguments =>
      cases hd : directoryOf entry with
      | error e => rw [ha, hd] at h; cases h
      | ok directory =>
        rw [ha, hd] at h
        cases file with
        | str path =>
          obtain rfl := Option.some.inj (Except.ok.inj h)
          exact ⟨path, arguments, directory, rfl, rfl, rfl, rfl, rfl⟩
        | _ => cases h

namespace Database

variable {d : Database}

theorem map_ofDocuments : (ofDocuments es documents).map = .ofList es := by
  rw [ofDocuments, addAll_eq, map_foldl_add]
  rfl

/-- A command is kept under its own file. -/
theorem get?_ofDocuments (h : (ofDocuments es documents).entries.get? file = some c) :
    c.file = file ∧
    ∃ doc ∈ documents, ∃ entry ∈ doc.entries,
    Command.ofEntry (.ofList es) doc.database entry = .ok (some c) := by
  have haccounts :=
    accounts_foldl_add (.ofList es) (documents.flatMap (Document.commands (.ofList es)))
  rw [ofDocuments, addAll_eq] at h
  have hfirst : first? (documents.flatMap (Document.commands (.ofList es))) file = some c :=
    (haccounts.kept file).symm.trans h
  refine ⟨by simpa using find?_some hfirst, ?_⟩
  obtain ⟨doc, hdoc, hc⟩ := mem_flatMap.1 (mem_of_find?_eq_some hfirst)
  obtain ⟨entry, hentry, hc⟩ := mem_filterMap.1 hc
  refine ⟨doc, hdoc, entry, takeWhile_subset _ hentry, ?_⟩
  rw [ofEntry_of_readable (mem_takeWhile_imp hentry), hc]

theorem lookup_eq_ok {path : String} :
    d.lookup path = .ok c ↔ d.entries.get? (d.map.normalize path "") = some c := by
  unfold lookup
  dsimp only
  cases d.entries.get? (d.map.normalize path "") <;> simp

/-- A file of a database is found again if the map leaves it where it is, as it does if old and new
places are apart. The file of a query is one of the database. -/
theorem files_found_iff (es : List (String × String)) (documents : List Document) :
    (∀ f ∈ (ofDocuments es documents).files,
      (((ofDocuments es documents).contains f ∧ ∃ c, (ofDocuments es documents).lookup f = .ok c ∧
        c.file = f) ↔ (PathMap.ofList es).normalize f "" = f)) ∧
    (PathMap.Apart es → ∀ f ∈ (ofDocuments es documents).files,
      (PathMap.ofList es).normalize f "" = f) ∧
    ∀ clean site q, Query.ofSite (ofDocuments es documents) clean site = .ok q →
      q.sourceFile ∈ (ofDocuments es documents).files := by
  refine ⟨fun f hf => ⟨fun h => ?_, fun h => ?_⟩, fun h f hf => ?_, fun clean site q hq => ?_⟩
  · obtain ⟨-, c, hc, rfl⟩ := h
    rw [lookup_eq_ok, map_ofDocuments] at hc
    exact (get?_ofDocuments hc).1.symm
  · obtain ⟨c, hc⟩ := Table.exists_get? hf
    have hlookup : (ofDocuments es documents).lookup f = .ok c := by
      rwa [lookup_eq_ok, map_ofDocuments, h]
    refine ⟨?_, c, hlookup, (get?_ofDocuments hc).1⟩
    rw [contains, map_ofDocuments, h, Table.contains_eq_true]
    exact hf
  · obtain ⟨c, hc⟩ := Table.exists_get? hf
    obtain ⟨rfl, doc, -, entry, -, hentry⟩ := get?_ofDocuments hc
    obtain ⟨path, -, directory, -, -, -, hfile, -⟩ := ofEntry_eq_some hentry
    rw [hfile]
    exact PathMap.normalize_twice h path directory
  · rcases Query.ofSite_cases (ofDocuments es documents) clean site with
      ⟨q', hq', hasks⟩ | ⟨m, file, line, he, -⟩ | ⟨he, -⟩
    · obtain rfl : q = q' := Except.ok.inj (hq.symm.trans hq')
      obtain ⟨c, hc, hfile, -⟩ := hasks.command
      obtain ⟨l, -, hc⟩ := Option.bind_eq_some_iff.1 hc
      rw [hfile, (get?_ofDocuments hc).1]
      exact Table.mem_keys_of_get? hc
    · cases hq.symm.trans he
    · cases hq.symm.trans he

theorem sampleDocuments_found : PathMap.Apart [("/src", "/mnt/src")] ∧
    "/mnt/src/app/other.c" ∈ (ofDocuments [("/src", "/mnt/src")] sampleDocuments).files ∧
    (PathMap.ofList [("/src", "/mnt/src")]).normalize "/mnt/src/app/other.c" "" =
      "/mnt/src/app/other.c" := by
  have hapart : PathMap.Apart [("/src", "/mnt/src")] := by decide +kernel
  have hmem : "/mnt/src/app/other.c" ∈
      (ofDocuments [("/src", "/mnt/src")] sampleDocuments).files := by decide +kernel
  exact ⟨hapart, hmem, (files_found_iff [("/src", "/mnt/src")] sampleDocuments).2.1 hapart _ hmem⟩

/-- A file that is moved into its own tree is looked for further down. -/
theorem moved_within_lost :
    (ofDocuments [("/src", "/src/old")] [⟨.arr [.obj [("file", .str "/src/a.c")]], ""⟩]).files =
      ["/src/old/a.c"] ∧
    (ofDocuments [("/src", "/src/old")] [⟨.arr [.obj [("file", .str "/src/a.c")]], ""⟩]).contains
      "/src/old/a.c" = false := by
  decide +kernel

end Database

end CallAtlas.Compile
