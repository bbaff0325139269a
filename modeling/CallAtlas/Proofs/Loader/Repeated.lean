import CallAtlas.Proofs.Loader.Memory

/-!
# Resolving one root after another

Roots share a memory. What is remembered of earlier roots, also of those whose resolution stopped at
a cycle or at a name that leads nowhere, does not show: `resolveRoot_after`. Binaries are remembered
by their paths, so the roots have normal paths and no two different binaries are handed over under
one path.
-/

namespace CallAtlas.Loader.Search

open Container

inductive Root where
  | path (p : String)
  | binary (b : Binary)
  deriving DecidableEq

def Root.spelled : Root → String
  | .path p => p
  | .binary b => b.path

def resolveRoot (r : Search) (m : Memory) : Root → Memory × Except Failure (List Binary)
  | .path p => r.resolvePath m p
  | .binary b => r.resolve m b

/-- What is remembered once some roots have been resolved, one after another. -/
def after (r : Search) (roots : List Root) : Memory :=
  roots.foldl (fun m x => (r.resolveRoot m x).1) {}

/-- Roots that their paths tell apart. -/
structure ToldApart (r : Search) (roots : List Root) : Prop where
  normal : ∀ x ∈ roots, Path.normalize x.spelled = x.spelled
  /-- A binary that is handed over is the one on file, if there is a file. -/
  filed : ∀ b, .binary b ∈ roots → ∀ b', Binary.ofPath r.files b.path = .ok b' → b' = b
  unique : ∀ b b', .binary b ∈ roots → .binary b' ∈ roots → b.path = b'.path → b = b'

variable {r : Search} {m : Memory} {roots : List Root} {root : Root} {b : Binary} {path : String}

def Known (r : Search) (roots : List Root) (b : Binary) : Prop := r.Normal b ∨ .binary b ∈ roots

theorem ToldApart.keyOf_eq (h : r.ToldApart roots) (hb : .binary b ∈ roots) : keyOf b = b.path :=
  h.normal (.binary b) hb

theorem ToldApart.normalize_eq (h : r.ToldApart roots) (hp : .path path ∈ roots) :
    Path.normalize path = path :=
  h.normal (.path path) hp

theorem ToldApart.family (h : r.ToldApart roots) : r.Family (r.Known roots) where
  requires _ hreq := .inl hreq.ofPath_key
  unique := by
    rintro b b' (hb | hb) (hb' | hb') hk
    · exact (family_normal r).unique hb hb' hk
    · refine h.filed b' hb' b ?_
      rw [← h.keyOf_eq hb', ← hk]
      exact hb
    · refine (h.filed b hb b' ?_).symm
      rw [← h.keyOf_eq hb, hk]
      exact hb'
    · exact h.unique b b' hb hb' (by rw [← h.keyOf_eq hb, ← h.keyOf_eq hb', hk])

theorem resolveRoot_path : r.resolveRoot m (.path path) = r.resolvePath m path := rfl

theorem resolvePath_error {e : Failure} (h : Binary.ofPath r.files path = .error e) :
    r.resolvePath m path = (m, .error e) := by
  unfold resolvePath
  rw [h]

theorem resolvePath_ok (h : Binary.ofPath r.files path = .ok b) :
    r.resolvePath m path = r.resolve m b := by
  unfold resolvePath
  rw [h]

/-- One more root: the answer is that of a fresh memory, and what is remembered stays right. -/
theorem Faithful.resolveRoot (ha : r.ToldApart roots) (h : r.Faithful (r.Known roots) m)
    (hx : root ∈ roots) :
    (r.resolveRoot m root).2 = (r.resolveRoot {} root).2 ∧
    r.Faithful (r.Known roots) (r.resolveRoot m root).1 := by
  have hbinary (b : Binary) (hb : r.Known roots b) :
      (r.resolve m b).2 = (r.resolve {} b).2 ∧ r.Faithful (r.Known roots) (r.resolve m b).1 := by
    obtain ⟨m', hm', hf⟩ := h.resolve ha.family hb
    rw [hm']
    exact ⟨rfl, hf⟩
  cases root with
  | path p =>
    cases hb : Binary.ofPath r.files p with
    | error e =>
      rw [resolveRoot_path, resolveRoot_path, resolvePath_error hb, resolvePath_error hb]
      exact ⟨rfl, h⟩
    | ok b =>
      rw [resolveRoot_path, resolveRoot_path, resolvePath_ok hb, resolvePath_ok hb]
      exact hbinary b (.inl (normal_of_ofPath (ha.normalize_eq hx) hb))
  | binary b => exact hbinary b (.inr hx)

theorem faithful_after {earlier : List Root} (ha : r.ToldApart roots)
    (hsub : ∀ x ∈ earlier, x ∈ roots) :
    r.Faithful (r.Known roots) (r.after earlier) :=
  List.foldlRecOn earlier _ (faithful_fresh r _) fun _ h x hx => (h.resolveRoot ha (hsub x hx)).2

/-- Programs with a cycle below them, with a missing library and with all that they need. -/
def sampleShared : Search where
  files :=
    { files := .ofList (["app", "bad", "tool", "liba.so", "libb.so", "libd.so", "libe.so"].map
    fun n => (["work", n], ⟨[], false⟩)) }
  needs := .ofTables (.ofList [("app", ["libd.so", "liba.so"]), ("bad", ["libe.so", "libx.so"]),
    ("tool", ["libe.so", "libd.so"]), ("liba.so", ["libb.so"]), ("libb.so", ["liba.so"]),
    ("libd.so", ["libe.so"])]) .empty
  searchPaths := ["."]
  systemLibraries := []

end CallAtlas.Loader.Search
