import CallAtlas.FileTree
import CallAtlas.Proofs.Path

/-!
# Files under normal paths

A path and its normal form lead to the same file, if the path leads to one: `locate_normalize`. The
reverse fails, since a normal form leaves out directories that the path goes through and that may be
missing.
-/

namespace CallAtlas.FileTree

open CallAtlas.Path

variable {t : FileTree} {path path' : String} {place q start : List String}

variable {c : String} {cs : List String}

/-- A place from which components can be followed. -/
def Enterable (t : FileTree) (place : List String) : Prop :=
  t.hasFile place = false ∧ t.hasDirectory place

theorem step_eq_ok :
    t.step path place c = .ok q ↔ t.Enterable place ∧ if isSolid c = false then q = place
    else if c = ".." then q = place.dropLast else c.utf8ByteSize ≤ longestName ∧
    q = place ++ [c] := by
  have hsolid : isSolid c = false ↔ c = "" ∨ c = "." := by
    simp only [isSolid, Bool.and_eq_false_iff, decide_eq_false_iff_not, not_not]
  unfold step Enterable
  simp only [hsolid]
  cases t.hasFile place <;> cases t.hasDirectory place <;> simp only [Bool.not_false, Bool.not_true,
    if_true, if_false, reduceCtorEq, false_and, true_and]
  split_ifs with h1 h2 h3
  · simp [eq_comm]
  · simp [eq_comm]
  · simp only [false_iff]
    omega
  · simp only [Except.ok.injEq]
    constructor
    · rintro rfl
      exact ⟨by omega, rfl⟩
    · rintro ⟨-, rfl⟩
      rfl

/-- Where components lead does not depend on the path that an error would name. -/
theorem step_path (h : t.step path place c = .ok q) : t.step path' place c = .ok q :=
  step_eq_ok.2 (step_eq_ok.1 h)

def steps (t : FileTree) (path : String) (cs : List String) (place : List String) :
    Except FileError (List String) :=
  cs.foldlM (t.step path) place

theorem steps_append {ds : List String} : t.steps path (cs ++ ds) place = .ok q ↔
      ∃ mid, t.steps path cs place = .ok mid ∧ t.steps path ds mid = .ok q := by
  unfold steps
  rw [List.foldlM_append]
  cases cs.foldlM (t.step path) place with
  | error e => simp [bind, Except.bind]
  | ok mid => simp [bind, Except.bind]

theorem steps_cons :
    t.steps path (c :: cs) place = .ok q ↔ ∃ mid, t.step path place c = .ok mid ∧
    t.steps path cs mid = .ok q := by
  unfold steps
  rw [List.foldlM_cons]
  cases t.step path place c with
  | error e => simp [bind, Except.bind]
  | ok mid => simp [bind, Except.bind]

theorem steps_singleton : t.steps path [c] place = t.step path place c := by
  unfold steps
  rw [List.foldlM_cons]
  cases t.step path place c <;> rfl

/-- Adding a component to normal ones that were followed is following it: where two dots take a
component back, the step went down by that component just before. -/
theorem steps_addComponent {absolute : Bool} {acc : List String} (hn : IsNormal absolute acc)
    (hstart : absolute → start = []) (hacc : t.steps path' acc.reverse start = .ok place)
    (hc : t.step path place c = .ok q) :
    t.steps path' (addComponent absolute acc c).reverse start = .ok q := by
  obtain ⟨henter, hq⟩ := step_eq_ok.1 hc
  have hlast : t.steps path' (c :: acc).reverse start = .ok q := by
    rw [List.reverse_cons]
    exact steps_append.2 ⟨place, hacc, by rw [steps_singleton]; exact step_path hc⟩
  cases hs : isSolid c with
  | false =>
    rw [if_pos hs] at hq
    rw [addComponent_of_not_solid hs, hq, hacc]
  | true =>
    by_cases hdots : c = ".."
    · subst hdots
      cases acc with
      | nil =>
        cases habs : absolute with
        | false => exact hlast
        | true =>
          obtain rfl : start = place := Except.ok.inj hacc
          rw [hstart habs] at hq ⊢
          rw [hq]
          rfl
      | cons last r =>
        rw [addComponent_dots_cons]
        split_ifs with hl
        · exact hlast
        · rw [List.reverse_cons] at hacc
          obtain ⟨mid, hmid, hstep⟩ := steps_append.1 hacc
          rw [steps_singleton] at hstep
          obtain ⟨-, hplace⟩ := step_eq_ok.1 hstep
          rw [if_neg (by simp [hn.1]), if_neg hl] at hplace
          rw [hq, hplace.2, List.dropLast_concat, hmid]
    · rw [addComponent_of_solid hs hdots]
      exact hlast

theorem steps_foldl {absolute : Bool} (hstart : absolute → start = []) {acc : List String}
    (hn : IsNormal absolute acc) (hacc : t.steps path' acc.reverse start = .ok place)
    (hcs : t.steps path cs place = .ok q) :
    t.steps path' (cs.foldl (addComponent absolute) acc).reverse start = .ok q := by
  induction cs generalizing acc place with
  | nil =>
    obtain rfl : place = q := Except.ok.inj hcs
    exact hacc
  | cons c cs ih =>
    obtain ⟨mid, hc, hcs⟩ := steps_cons.1 hcs
    exact ih (isNormal_addComponent hn) (steps_addComponent hn hstart hacc hc) hcs

theorem steps_of_not_solid {u : List String} (hu : ∀ c ∈ u, isSolid c = false)
    (h : t.Enterable place) :
    t.steps path u place = .ok place := by
  induction u with
  | nil => rfl
  | cons c u ih =>
    obtain ⟨hc, hu⟩ := List.forall_mem_cons.1 hu
    exact steps_cons.2 ⟨place, step_eq_ok.2 ⟨h, by rw [if_pos hc]⟩, ih hu⟩

theorem steps_normalize (h : t.steps path (components path) (t.start path) = .ok q) :
    t.steps (normalize path) (components (normalize path)) (t.start (normalize path)) = .ok q := by
  have hstart : t.start (normalize path) = t.start path := by
    rw [start, isAbsolute_normalize, start]
  have henter : t.Enterable (t.start path) := by
    obtain ⟨c, cs, hc⟩ := List.exists_cons_of_ne_nil (components_ne_nil path)
    rw [hc] at h
    obtain ⟨mid, hstep, -⟩ := steps_cons.1 h
    exact (step_eq_ok.1 hstep).1
  obtain ⟨u, hu, hcs⟩ := components_normalize path
  rw [hstart, hcs]
  refine steps_append.2 ⟨t.start path, steps_of_not_solid hu henter, ?_⟩
  have habs : isAbsolute path → t.start path = [] := fun ha => by rw [start, if_pos ha]
  exact steps_foldl habs isNormal_nil rfl h

theorem checkPath_eq_ok : checkPath path = .ok () ↔
    '\x00' ∉ path.toList ∧ path ≠ "" ∧ path.utf8ByteSize < pathLimit := by
  unfold checkPath
  split_ifs with h1 h2 h3 <;> simp_all

theorem checkPath_normalize (h : checkPath path = .ok ()) :
    checkPath (normalize path) = .ok () := by
  obtain ⟨hnull, hne, hlen⟩ := checkPath_eq_ok.1 h
  refine checkPath_eq_ok.2 ⟨fun hc => ?_, ?_, lt_of_le_of_lt (utf8ByteSize_normalize_le hne) hlen⟩
  · rcases mem_toList_normalize hc with hc | hc | hc
    · exact hnull hc
    · exact absurd hc (by decide)
    · exact absurd hc (by decide)
  · rw [normalize_eq, rooted]
    split_ifs with he
    · decide
    · rwa [String.isEmpty_iff] at he

theorem locate_eq_ok : t.locate path = .ok place ↔
    checkPath path = .ok () ∧ t.steps path (components path) (t.start path) = .ok place := by
  unfold locate follow steps
  cases checkPath path with
  | error e => simp [bind, Except.bind]
  | ok _ =>
    cases (components path).foldlM (t.step path) (t.start path) with
    | error e => simp [bind, Except.bind]
    | ok p => simp [bind, Except.bind]

theorem locate_normalize (h : t.locate path = .ok place) :
    t.locate (normalize path) = .ok place := by
  obtain ⟨hc, hs⟩ := locate_eq_ok.1 h
  exact locate_eq_ok.2 ⟨checkPath_normalize hc, steps_normalize hs⟩

theorem isFile_normalize (h : t.isFile path) : t.isFile (normalize path) := by
  unfold isFile at h ⊢
  split at h
  · next place hp => rw [locate_normalize hp]; exact h
  · cases h

theorem file_eq_ok {f : File} (hl : t.locate path = .ok place)
    (hf : t.files.get? place = some f) : t.file path = .ok f := by
  rw [file, hl]
  dsimp only [bind, Except.bind]
  rw [hf]
  rfl

theorem read_of_isFile (h : t.isFile path) : ∃ data, t.read path = .ok data := by
  unfold isFile at h
  split at h
  · next place hp =>
    obtain ⟨f, hf⟩ := Option.isSome_iff_exists.1 h
    exact ⟨f.data, by rw [read, file_eq_ok hp hf]; rfl⟩
  · cases h

theorem locate_of_plain (h : IsPlain c) (hnull : '\x00' ∉ c.toList)
    (hlen : c.utf8ByteSize ≤ longestName)
    (henter : t.Enterable t.current) : t.locate c = .ok (t.current ++ [c]) := by
  refine locate_eq_ok.2 ⟨checkPath_eq_ok.2 ⟨hnull, ?_, lt_of_le_of_lt hlen (by decide)⟩, ?_⟩
  · rintro rfl
    exact absurd h.solid (by decide)
  · rw [h.components, steps_singleton, start, h.isAbsolute]
    exact step_eq_ok.2 ⟨henter, by rw [h.solid, if_neg h.notDots]; exact ⟨hlen, rfl⟩⟩

end CallAtlas.FileTree
