import CallAtlas.Proofs.Compile.PathMap

/-!
# Flags that matter

Cleaning goes through the tokens and skips one at times. `kept` says what stays by positions: a
token stays unless it is the argument of a flag before it, such a flag itself, a flag of the build
or the source file. What stays takes no arguments, so to clean it again changes nothing.
-/

namespace CallAtlas.Compile

open List

variable {map : PathMap} {c c' : Command} {t : String} {tokens : List String}

/-- Whether the token at a position is the argument of the flag before it. -/
def consumed (tokens : List String) : Nat → Bool
  | 0 => false
  | i + 1 => tokens[i]?.any (· ∈ flagsWithArgument) && !consumed tokens i

def stays (map : PathMap) (c : Command) (t : String) : Bool :=
  t ∉ flagsWithArgument && !isBuildFlag t && !namesSource map c t

def kept (map : PathMap) (c : Command) (tokens : List String) : List String :=
  (tokens.zipIdx.filter fun p => !consumed tokens p.2 && stays map c p.1).map Prod.fst

theorem consumed_cons (ht : t ∉ flagsWithArgument) (i : Nat) :
    consumed (t :: tokens) (i + 1) = consumed tokens i := by
  induction i with
  | zero => simp [consumed, ht]
  | succ i ih => rw [consumed, ih, getElem?_cons_succ, consumed]

theorem consumed_cons_cons {a : String} (ht : t ∈ flagsWithArgument) (i : Nat) :
    consumed (t :: a :: tokens) (i + 2) = consumed tokens i := by
  induction i with
  | zero => simp [consumed, ht]
  | succ i ih => rw [consumed, ih, getElem?_cons_succ, getElem?_cons_succ, consumed]

theorem filter_zipIdx_cons (P : Nat → String → Bool) (t : String) (tokens : List String) :
    ((t :: tokens).zipIdx.filter fun p => P p.2 p.1).map Prod.fst =
      (if P 0 t then [t] else []) ++ (tokens.zipIdx.filter fun p => P (p.2 + 1) p.1).map
      Prod.fst := by
  rw [zipIdx_cons, filter_cons, zipIdx_succ, filter_map, apply_ite (List.map Prod.fst), map_cons,
    map_map]
  split_ifs <;> rfl

theorem kept_cons (ht : t ∉ flagsWithArgument) :
    kept map c (t :: tokens) = (if stays map c t then [t] else []) ++ kept map c tokens := by
  rw [kept, filter_zipIdx_cons fun i t' => !consumed (t :: tokens) i && stays map c t']
  simp only [consumed_cons ht]
  rfl

theorem kept_cons_cons {a : String} (ht : t ∈ flagsWithArgument) :
    kept map c (t :: a :: tokens) = kept map c tokens := by
  rw [kept, filter_zipIdx_cons fun i t' => !consumed (t :: a :: tokens) i && stays map c t',
    filter_zipIdx_cons fun i t' => !consumed (t :: a :: tokens) (i + 1) && stays map c t']
  simp only [consumed_cons_cons ht]
  simp [consumed, ht, stays, kept]

theorem cleanTokens_eq (map : PathMap) (c : Command) (tokens : List String) :
    cleanTokens map c (tokens.map .str) = .ok (kept map c tokens) := by
  match tokens with
  | [] =>
    rw [map_nil, cleanTokens]
    rfl
  | t :: r =>
    rw [map_cons, cleanTokens]
    by_cases ht : t ∈ flagsWithArgument
    · rw [if_pos (contains_iff_mem.2 ht)]
      match r with
      | [] =>
        rw [map_nil, drop_nil, cleanTokens]
        simp [kept, stays, ht]
      | a :: r =>
        rw [map_cons, drop_succ_cons, drop_zero, kept_cons_cons ht]
        exact cleanTokens_eq map c r
    · rw [if_neg (mt contains_iff_mem.1 ht), cleanTokens_eq map c r, kept_cons ht]
      cases hb : isBuildFlag t <;> cases hn : namesSource map c t <;>
        simp [stays, ht, hb, hn, Except.map]

theorem stays_of_mem_kept (h : t ∈ kept map c tokens) : stays map c t := by
  obtain ⟨p, hp, rfl⟩ := mem_map.1 h
  exact (Bool.and_eq_true _ _ ▸ (mem_filter.1 hp).2).2

theorem kept_kept : kept map c (kept map c tokens) = kept map c tokens := by
  have hstays : ∀ t ∈ kept map c tokens, stays map c t := fun t => stays_of_mem_kept
  generalize kept map c tokens = flags at hstays
  induction flags with
  | nil => rfl
  | cons t flags ih =>
    obtain ⟨ht, hflags⟩ := forall_mem_cons.1 hstays
    have hf : t ∉ flagsWithArgument := by simp_all [stays]
    rw [kept_cons hf, if_pos ht, ih hflags, singleton_append]

theorem kept_sublist : (kept map c tokens).Sublist tokens := by
  have h :=
    (filter_sublist (p := fun p => !consumed tokens p.2 && stays map c p.1)
      (l := tokens.zipIdx)).map Prod.fst
  rwa [zipIdx_map_fst] at h

/-! ## Tokens that stay -/

/-- A token that is neither a flag of the build nor the source file. -/
structure Clean (c : Command) (t : String) : Prop where
  standalone : t ∉ standaloneFlags
  headed : ∀ h ∈ flagHeads, t.startsWith h = false
  /-- An argument on one line may not be attached. -/
  attached : ∀ f ∈ flagsWithArgument, t.startsWith f → t ≠ f ∧ '\n' ∈ t.toList
  source : t.startsWith "-" = false → Path.extension t ∈ sourceExtensions →
    PathMap.joined t c.directory ≠ c.file

theorem mem_of_not_isOneLine {s : List Char} (h : isOneLine s = false) (hs : s ≠ []) :
    '\n' ∈ s := by
  by_contra hn
  have hlast : s.getLast? ≠ some '\n' := fun hl => hn (mem_of_getLast? hl)
  simp [isOneLine, hlast, hs, hn] at h

theorem clean_of_stays (h : stays {} c t = true) : Clean c t := by
  simp only [stays, isBuildFlag, Bool.and_eq_true, decide_eq_true_eq, Bool.not_eq_true',
    Bool.or_eq_false_iff] at h
  obtain ⟨⟨hflag, ⟨hstandalone, hattached⟩, hheads⟩, hsource⟩ := h
  refine ⟨by simpa using hstandalone, fun f hf => ?_, fun f hf hstarts => ?_,
    fun hdash hext hfile => ?_⟩
  · simpa using any_eq_false.1 hheads f hf
  · have hne : t ≠ f := fun he => hflag (he ▸ hf)
    obtain ⟨u, hu⟩ := String.startsWith_string_iff.1 hstarts
    have hdrop : t.toList.drop f.length = u := by rw [← hu, ← String.length_toList, drop_left]
    have hline := any_eq_false.1 hattached f hf
    rw [hstarts, hdrop, Bool.true_and, Bool.not_eq_true] at hline
    refine ⟨hne, hu ▸ mem_append_right _ (mem_of_not_isOneLine hline ?_)⟩
    rintro rfl
    rw [append_nil, String.toList_inj] at hu
    exact hne hu.symm
  · rw [namesSource, hdash, contains_iff_mem.2 hext,
      show PathMap.normalize {} t c.directory = c.file from hfile] at hsource
    simp at hsource

/-! ## Cleaning again -/

theorem flags_eq (h : c.arguments.drop 1 = tokens.map .str) :
    c.flags map = .ok (kept map c tokens) := by
  rw [Command.flags, h, cleanTokens_eq]

theorem kept_congr (hfile : c'.file = c.file) (hdirectory : c'.directory = c.directory) :
    kept map c' tokens = kept map c tokens := by
  unfold kept stays namesSource
  rw [hfile, hdirectory]

theorem ofEntry_arguments {database database' : String} {entry entry' : Json}
    {arguments : List Json}
    (h : Command.ofEntry map database entry = .ok (some c))
    (hfile : entry'.get? "file" = entry.get? "file")
    (hdirectory : entry'.get? "directory" = entry.get? "directory")
    (harguments : entry'.get? "arguments" = some (.arr arguments)) :
    ∃ c', Command.ofEntry map database' entry' = .ok (some c') ∧ c'.file = c.file ∧
      c'.directory = c.directory ∧ c'.arguments = arguments := by
  have hd : directoryOf entry' = directoryOf entry := by rw [directoryOf, directoryOf, hdirectory]
  have ha : argumentsOf entry' = .ok arguments := by rw [argumentsOf, harguments]; rfl
  obtain ⟨path, -, directory, hpath, -, hdir, hcfile, hcdirectory⟩ := ofEntry_eq_some h
  unfold Command.ofEntry
  rw [hfile, hpath, ha, hd, hdir]
  exact ⟨_, rfl, hcfile.symm, hcdirectory.symm, rfl⟩

namespace Database

theorem lookup_single {database : String} {entry : Json}
    (h : Command.ofEntry (.ofList []) database entry = .ok (some c)) :
    (ofDocuments [] [⟨.arr [entry], database⟩]).lookup c.file = .ok c := by
  have hfile : (PathMap.ofList []).normalize c.file "" = c.file := by
    obtain ⟨path, -, directory, -, -, -, hfile, -⟩ := ofEntry_eq_some h
    rw [hfile]
    exact PathMap.normalize_twice (fun e he => absurd he not_mem_nil) path directory
  have hadd : ofDocuments [] [⟨.arr [entry], database⟩] = (empty []).add c := by
    show (addEntries database (empty []) [entry]).1 = _
    rw [addEntries, show Command.ofEntry (empty []).map database entry = _ from h]
    rfl
  rw [lookup_eq_ok, map_ofDocuments, hfile, hadd]
  exact (Table.get?_insert ..).trans (if_pos rfl)

/-- Without a map, the flags of a file are the tokens behind the compiler that are kept. They are
clean, and an entry for the same file and directory with them as its arguments has the same
flags. -/
theorem flags_cleaned {documents : List Document} {path : String} {tokens : List String}
    (hc : (ofDocuments [] documents).lookup path = .ok c)
    (ht : c.arguments.drop 1 = tokens.map .str) :
    (ofDocuments [] documents).flagsFor path = .ok (kept {} c tokens) ∧
    (kept {} c tokens).Sublist tokens ∧ (∀ t ∈ kept {} c tokens, Clean c t) ∧
    ∃ doc ∈ documents, ∃ entry ∈ doc.entries, Command.ofEntry {} doc.database entry = .ok (some c) ∧
      ∀ entry' compiler database, entry'.get? "file" = entry.get? "file" →
        entry'.get? "directory" = entry.get? "directory" →
        entry'.get? "arguments" = some (.arr (compiler :: (kept {} c tokens).map .str)) →
        (ofDocuments [] [⟨.arr [entry'], database⟩]).flagsFor c.file = .ok (kept {} c tokens) := by
  have hmap : PathMap.ofList [] = {} := congrArg PathMap.mk mergeSort_nil
  have hflags {documents : List Document} {path : String} {c : Command}
      (hc : (ofDocuments [] documents).lookup path = .ok c) :
      (ofDocuments [] documents).flagsFor path = c.flags {} := by
    rw [flagsFor, hc, map_ofDocuments, hmap]
    rfl
  obtain ⟨-, doc, hdoc, entry, hentry, hof⟩ := get?_ofDocuments (lookup_eq_ok.1 hc)
  refine ⟨(hflags hc).trans (flags_eq ht), kept_sublist,
    fun t ht => clean_of_stays (stays_of_mem_kept ht), doc, hdoc,
    entry, hentry, hmap ▸ hof, fun entry' compiler database hfile hdirectory harguments => ?_⟩
  obtain ⟨c', hof', hfile', hdirectory', harguments'⟩ :=
    ofEntry_arguments hof hfile hdirectory harguments
  rw [← hfile', hflags (lookup_single hof'),
    flags_eq (by rw [harguments']; rfl : c'.arguments.drop 1 = (kept {} c tokens).map .str),
    kept_congr hfile' hdirectory', kept_kept]

def sampleEntry : Json :=
  .obj [("directory", .str "/d"), ("file", .str "a.c"),
    ("arguments", .arr [.str "cc", .str "-o", .str "-c", .str "-O2",
    .str "-oa", .str "./a.c", .str "-MF"])]

theorem sampleEntry_cleaned :
    ∃ c, (ofDocuments [] [⟨.arr [sampleEntry], ""⟩]).lookup "/d/a.c" = .ok c ∧
    c.arguments.drop 1 = ["-o", "-c", "-O2", "-oa", "./a.c", "-MF"].map .str ∧
    (ofDocuments [] [⟨.arr [sampleEntry], ""⟩]).flagsFor "/d/a.c" = .ok ["-O2"] := by
  obtain ⟨c, hc, hfile, harguments, hkept⟩ : ∃ c, Command.ofEntry (.ofList []) "" sampleEntry =
      .ok (some c) ∧
      c.file = "/d/a.c" ∧ c.arguments.drop 1 = ["-o", "-c", "-O2", "-oa", "./a.c", "-MF"].map .str ∧
      kept {} c ["-o", "-c", "-O2", "-oa", "./a.c", "-MF"] = ["-O2"] :=
    ⟨_, rfl, by decide +kernel, rfl, by decide +kernel⟩
  have hlookup := lookup_single hc
  rw [hfile] at hlookup
  have hflags := (flags_cleaned hlookup harguments).1
  rw [hkept] at hflags
  exact ⟨c, hlookup, harguments, hflags⟩

/-- A source file with a dash in front stays. -/
theorem dashed_source_kept :
    ((ofDocuments []
      [⟨.arr [.obj [("directory", .str "/d"), ("file", .str "-a.c"), ("arguments", .arr [.str "cc",
      .str "-a.c"])]], ""⟩]).flagsFor "/d/-a.c").toOption = some ["-a.c"] ∧
      PathMap.joined "-a.c" "/d" = "/d/-a.c" := by
  decide +kernel

end Database

end CallAtlas.Compile
