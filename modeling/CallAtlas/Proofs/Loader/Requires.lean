import CallAtlas.Loader.Order
import CallAtlas.Proofs.FileTree

/-!
# Which binaries a binary requires

`Locates` says where a needed name leads, without the search that finds it, and `Requires` which
binaries the names of a binary lead to. The direct dependencies are exactly these
(`dependencies_ok`), and computing them fails only for a name that leads nowhere
(`dependencies_error`). A required binary is determined by its key: `Requires.unique`.
-/

namespace CallAtlas.Loader.Search

open Container List

variable {r : Search} {b d : Binary} {name path : String}

variable {deps : List Binary} {e : Failure}

/-! ## Names -/

/-- The directories in which the libraries of a binary are looked for. -/
def directories (r : Search) (b : Binary) : List String := r.needs.searchPaths b ++ r.searchPaths

/-- A name that a binary needs leads to the file at a path: a name with a slash is that path, and
others lead to the first directory that has such a file. -/
def Locates (r : Search) (b : Binary) (name path : String) : Prop :=
  if '/' ∈ name.toList then path = Path.normalize name ∧ r.files.isFile path
  else ∃ dir, (r.directories b).find? (fun d => r.files.isFile (Path.join d name)) = some dir ∧
    path = Path.normalize (Path.join dir name)

/-- A name that a binary needs leads to a file. -/
def Locatable (r : Search) (b : Binary) (name : String) : Prop := ∃ path, r.Locates b name path

theorem locate_cases (r : Search) (b : Binary) (name : String) :
    (∃ path, r.locate b name = .ok path ∧ ∀ q, r.Locates b name q ↔ q = path) ∨
    (∃ searched, r.locate b name = .error (.of (.unlocated name b.path searched)) ∧
      ¬ r.Locatable b name) := by
  unfold Locatable Locates locate
  by_cases hslash : '/' ∈ name.toList
  · simp only [hslash, contains_eq_mem]
    cases hf : r.files.isFile (Path.normalize name) with
    | true =>
      refine .inl ⟨_, by simp, fun q => ⟨fun h => h.1, ?_⟩⟩
      rintro rfl
      exact ⟨rfl, hf⟩
    | false =>
      refine .inr ⟨_, by rfl, ?_⟩
      rintro ⟨_, rfl, h⟩
      simp [hf] at h
  · simp only [hslash, contains_eq_mem, find?_map]
    have hcomp : (r.files.isFile ∘ fun d => Path.join d name) = fun d =>
      r.files.isFile (Path.join d name) := rfl
    rw [hcomp]
    cases hfind : (r.directories b).find? (fun d => r.files.isFile (Path.join d name)) with
    | some dir =>
      rw [directories] at hfind
      refine .inl ⟨_, by rw [hfind]; rfl, fun q => ?_⟩
      simp
    | none =>
      rw [directories] at hfind
      refine .inr ⟨_, by rw [hfind]; rfl, ?_⟩
      simp

theorem locate_ok (h : r.locate b name = .ok path) : r.Locates b name path := by
  rcases locate_cases r b name with ⟨q, hq, hl⟩ | ⟨_, he, -⟩
  · rw [hq] at h
    exact (hl path).2 (Except.ok.inj h).symm
  · rw [he] at h
    cases h

theorem locate_error (h : r.locate b name = .error e) :
    (∃ searched, e = .of (.unlocated name b.path searched)) ∧ ¬ r.Locatable b name := by
  rcases locate_cases r b name with ⟨q, hq, -⟩ | ⟨searched, he, hn⟩
  · rw [hq] at h
    cases h
  · rw [he] at h
    exact ⟨⟨searched, (Except.error.inj h).symm⟩, hn⟩

theorem Locates.locate (h : r.Locates b name path) : r.locate b name = .ok path := by
  rcases locate_cases r b name with ⟨q, hq, hl⟩ | ⟨_, -, hn⟩
  · rw [hq, (hl path).1 h]
  · exact absurd ⟨path, h⟩ hn

theorem Locates.isFile (h : r.Locates b name path) :
    r.files.isFile path ∧ Path.normalize path = path := by
  unfold Locates at h
  split_ifs at h
  · obtain ⟨rfl, hf⟩ := h
    exact ⟨hf, Path.normalize_normalize name⟩
  · obtain ⟨dir, hfind, rfl⟩ := h
    have hf : r.files.isFile (Path.join dir name) := by simpa using find?_some hfind
    exact ⟨FileTree.isFile_normalize hf, Path.normalize_normalize _⟩

/-! ## Binaries -/

/-- The binary at a normal path is there if the file is, and the path is its key. -/
theorem ofPath_normal (hf : r.files.isFile path) (hn : Path.normalize path = path) :
    ∃ d, Binary.ofPath r.files path = .ok d ∧ keyOf d = path := by
  have ht : Path.tidy path = path := by rw [← hn, Path.tidy_normalize]
  obtain ⟨data, hd⟩ := FileTree.read_of_isFile hf
  refine ⟨⟨path, .detect (data.take headSize)⟩, ?_, hn⟩
  unfold Binary.ofPath
  dsimp only
  rw [ht, hd]
  rfl

/-- A name that `b` needs leads to the binary `d`. -/
def Requires (r : Search) (b d : Binary) : Prop :=
  ∃ name ∈ r.neededNames b, ∃ path, r.Locates b name path ∧ Binary.ofPath r.files path = .ok d

theorem Locates.exists_binary (h : r.Locates b name path) :
    ∃ d, Binary.ofPath r.files path = .ok d ∧ keyOf d = path :=
  ofPath_normal h.isFile.1 h.isFile.2

/-! ## Direct dependencies -/

/-- Adds the binary that a name leads to. -/
def addNeeded (r : Search) (b : Binary) (deps : List Binary) (name : String) :
    Except Failure (List Binary) := do
  r.addPath deps (← r.locate b name)

/-- The binary that a needed name leads to. -/
def denoted (r : Search) (b : Binary) (name : String) : Option Binary :=
  match r.locate b name with
  | .ok path => (Binary.ofPath r.files path).toOption
  | .error _ => none

theorem denoted_eq_some :
    r.denoted b name = some d ↔ ∃ path, r.Locates b name path ∧
    Binary.ofPath r.files path = .ok d := by
  unfold denoted
  cases hl : r.locate b name with
  | error e =>
    refine ⟨fun h => (by cases h), ?_⟩
    rintro ⟨path, hp, -⟩
    exact absurd ⟨path, hp⟩ (locate_error hl).2
  | ok path =>
    have hok : (Binary.ofPath r.files path).toOption = some d ↔
        Binary.ofPath r.files path = .ok d := by
      cases Binary.ofPath r.files path <;> simp [Except.toOption]
    refine hok.trans ⟨fun h => ⟨path, locate_ok hl, h⟩, ?_⟩
    rintro ⟨q, hq, hd⟩
    rwa [Except.ok.inj (hq.locate.symm.trans hl)] at hd

/-- A name adds the binary that it leads to, unless one with its key is there, or it leads
nowhere. -/
theorem addNeeded_cases (r : Search) (b : Binary) (deps : List Binary) (name : String) :
    (∃ d, r.denoted b name = some d ∧ r.Locatable b name ∧
      r.addNeeded b deps name = .ok (if keyOf d ∈ deps.map keyOf then deps else deps ++ [d])) ∨
    ∃ searched, r.addNeeded b deps name = .error (.of (.unlocated name b.path searched)) ∧
    ¬ r.Locatable b name := by
  unfold addNeeded
  cases hl : r.locate b name with
  | error e =>
    obtain ⟨⟨searched, rfl⟩, hn⟩ := locate_error hl
    exact .inr ⟨searched, rfl, hn⟩
  | ok path =>
    have hloc := locate_ok hl
    obtain ⟨d, hd, rfl⟩ := hloc.exists_binary
    refine .inl ⟨d, denoted_eq_some.2 ⟨_, hloc, hd⟩, ⟨_, hloc⟩, ?_⟩
    have hany : (deps.any fun c => decide (keyOf c = keyOf d)) =
        decide (keyOf d ∈ deps.map keyOf) := by
      rw [Bool.eq_iff_iff]
      simp
    show r.addPath deps (keyOf d) = _
    rw [addPath, hany, hd]
    split_ifs with h1 h2 h2
    · rfl
    · exact absurd (of_decide_eq_true h1) h2
    · exact absurd (decide_eq_true h2) h1
    · rfl

/-- The binaries of a list are those that names of another list lead to. -/
def Collected (r : Search) (b : Binary) (names : List String) (deps : List Binary) : Prop :=
  (∀ name ∈ names, r.Locatable b name) ∧ ∀ d, d ∈ deps ↔ ∃ name ∈ names, r.denoted b name = some d

theorem ofPath_denoted (h : r.denoted b name = some d) :
    Binary.ofPath r.files (keyOf d) = .ok d := by
  obtain ⟨path, hl, hd⟩ := denoted_eq_some.1 h
  obtain ⟨d', hd', rfl⟩ := hl.exists_binary
  obtain rfl := Except.ok.inj (hd.symm.trans hd')
  exact hd

theorem Requires.ofPath_key (h : r.Requires b d) : Binary.ofPath r.files (keyOf d) = .ok d := by
  obtain ⟨name, -, h⟩ := h
  exact ofPath_denoted (denoted_eq_some.2 h)

theorem Requires.unique {b' d' : Binary} (h : r.Requires b d) (h' : r.Requires b' d')
    (hk : keyOf d = keyOf d') :
    d = d' := by
  have := h.ofPath_key
  rw [hk, h'.ofPath_key] at this
  exact (Except.ok.inj this).symm

theorem addNeeded_ok {names : List String} {deps' : List Binary} (hc : r.Collected b names deps)
    (h : r.addNeeded b deps name = .ok deps') : r.Collected b (names ++ [name]) deps' := by
  obtain ⟨hall, hmem⟩ := hc
  rcases addNeeded_cases r b deps name with ⟨d0, hd0, hloc, hadd⟩ | ⟨searched, hadd, -⟩ <;>
    rw [hadd] at h
  · obtain rfl := Except.ok.inj h
    refine ⟨forall_mem_append.2 ⟨hall, forall_mem_singleton.2 hloc⟩, fun d => ?_⟩
    have hlast : (∃ n ∈ names ++ [name], r.denoted b n = some d) ↔ d ∈ deps ∨ d = d0 := by
      simp only [mem_append, mem_singleton, or_and_right, exists_or, exists_eq_left, hd0,
        Option.some.injEq, hmem, eq_comm (a := d0)]
    rw [hlast]
    split_ifs with hk
    · -- A collected binary with the key is the binary itself.
      obtain ⟨d', hd', hkey⟩ := mem_map.1 hk
      obtain ⟨n, -, hn⟩ := (hmem d').1 hd'
      have hsame := ofPath_denoted hn
      rw [hkey, ofPath_denoted hd0] at hsame
      obtain rfl := Except.ok.inj hsame
      exact ⟨.inl, fun h => h.elim id fun h => h ▸ hd'⟩
    · rw [mem_append, mem_singleton]
  · cases h

theorem addNeeded_error (h : r.addNeeded b deps name = .error e) :
    (∃ searched, e = .of (.unlocated name b.path searched)) ∧ ¬ r.Locatable b name := by
  rcases addNeeded_cases r b deps name with ⟨d, -, -, hadd⟩ | ⟨searched, hadd, hn⟩ <;>
    rw [hadd] at h
  · cases h
  · exact ⟨⟨searched, (Except.error.inj h).symm⟩, hn⟩

theorem collect_ok {names rest : List String} {deps' : List Binary} (hc : r.Collected b names deps)
    (h : rest.foldlM (r.addNeeded b) deps = .ok deps') : r.Collected b (names ++ rest) deps' := by
  induction rest generalizing names deps with
  | nil =>
    obtain rfl := Except.ok.inj h
    rwa [append_nil]
  | cons name rest ih =>
    rw [foldlM_cons] at h
    cases ha : r.addNeeded b deps name with
    | error e =>
      rw [ha] at h
      cases h
    | ok mid =>
      rw [ha] at h
      have := ih (addNeeded_ok hc ha) h
      rwa [append_assoc] at this

theorem collect_error {rest : List String} (h : rest.foldlM (r.addNeeded b) deps = .error e) :
    ∃ name ∈ rest, (∃ searched, e = .of (.unlocated name b.path searched)) ∧
    ¬ r.Locatable b name := by
  induction rest generalizing deps with
  | nil => cases h
  | cons name rest ih =>
    rw [foldlM_cons] at h
    cases ha : r.addNeeded b deps name with
    | error e' =>
      rw [ha] at h
      cases h
      exact ⟨name, mem_cons_self .., addNeeded_error ha⟩
    | ok mid =>
      rw [ha] at h
      obtain ⟨n, hn, hr⟩ := ih h
      exact ⟨n, mem_cons_of_mem _ hn, hr⟩

theorem dependencies_eq (h : r.needs.refuses b = none) :
    r.dependencies b = (r.neededNames b).foldlM (r.addNeeded b) [] := by
  rw [dependencies, h]
  rfl

/-- Every needed name leads to a file. -/
def Supplied (r : Search) (b : Binary) : Prop := ∀ name ∈ r.neededNames b, r.Locatable b name

theorem refuses_of_dependencies (h : r.dependencies b = .ok deps) : r.needs.refuses b = none := by
  unfold dependencies at h
  cases hr : r.needs.refuses b with
  | none => rfl
  | some e =>
    rw [hr] at h
    cases h

theorem dependencies_ok (h : r.dependencies b = .ok deps) :
    r.Supplied b ∧ ∀ d, d ∈ deps ↔ r.Requires b d := by
  rw [dependencies_eq (refuses_of_dependencies h)] at h
  have hnil : r.Collected b [] [] := ⟨by simp, by simp⟩
  have hc := collect_ok hnil h
  rw [nil_append] at hc
  exact ⟨hc.1, fun d => by simp only [hc.2, denoted_eq_some, Requires]⟩

theorem dependencies_error (ha : r.needs.refuses b = none) (h : r.dependencies b = .error e) :
    ∃ name ∈ r.neededNames b, (∃ searched, e = .of (.unlocated name b.path searched)) ∧
    ¬ r.Locatable b name := by
  rw [dependencies_eq ha] at h
  exact collect_error h

end CallAtlas.Loader.Search
