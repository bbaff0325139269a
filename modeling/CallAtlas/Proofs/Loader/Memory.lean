import CallAtlas.Proofs.Graph.BreadthFirst
import CallAtlas.Proofs.Loader.Cycles

/-!
# What a resolution remembers does not matter

`explore` is the visit without a memory. On a memory that is right about the binaries at hand,
`Truthful`, the visit does the same (`visit_mirrors`), and when it ends the dependencies of all that
it reached are remembered. The order is then the breadth-first order along the names that the
binaries need, `order_eq`, so a resolution finds what it finds on a fresh memory:
`Faithful.resolve`, for the binaries of a family. Those that are found under their keys are one.
-/

namespace CallAtlas.Loader.Search

open Container List

variable {r : Search} {P : Binary → Prop} {root b d : Binary} {m m' m'' : Memory}
  {done : List String} {fuel : Nat}
variable {g : List String → Binary → List String × Except Failure Unit} {deps : List Binary}

/-! ## The visit without a memory -/

/-- Visits as `visit` does and computes all dependencies anew. -/
def explore (r : Search) :
    Nat → List String → List String → Binary → List String × Except Failure Unit
  | 0, _, done, _ => (done, .error .tooDeep)
  | fuel + 1, path, done, b =>
    if done.contains (keyOf b) then (done, .ok ())
    else if path.contains (keyOf b)
      then (done, .error (.of (.cycle (path.dropWhile (· ≠ keyOf b) ++ [keyOf b]))))
    else
      match r.dependencies b with
      | .error e => (done, .error e)
      | .ok deps =>
        match forEach (r.explore fuel (path ++ [keyOf b])) done deps with
        | (done, .ok ()) => (keyOf b :: done, .ok ())
        | (done, .error e) => (done, .error e)

/-- A step that keeps what is finished and, if it ends, has finished its binary. -/
def Finishes (g : List String → Binary → List String × Except Failure Unit) : Prop :=
  ∀ done b, done ⊆ (g done b).1 ∧ ((g done b).2 = .ok () → keyOf b ∈ (g done b).1)

theorem Finishes.forEach (hg : Finishes g) (done : List String) (deps : List Binary) :
    done ⊆ (forEach g done deps).1 ∧
    ((forEach g done deps).2 = .ok () → ∀ d ∈ deps, keyOf d ∈ (forEach g done deps).1) := by
  induction deps generalizing done with
  | nil => exact ⟨fun _ => id, fun _ => by simp⟩
  | cons d deps ih =>
    rw [Loader.forEach]
    cases hd : g done d with
    | mk done1 res =>
      have hstep := hg done d
      rw [hd] at hstep
      cases res with
      | error e => exact ⟨hstep.1, fun h => by cases h⟩
      | ok _ =>
        obtain ⟨hsub, hmem⟩ := ih done1
        refine ⟨Subset.trans hstep.1 hsub, fun h => forall_mem_cons.2 ⟨hsub (hstep.2 rfl), hmem h⟩⟩

theorem finishes_explore (r : Search) (fuel : Nat) (path : List String) :
    Finishes (r.explore fuel path) := by
  induction fuel generalizing path with
  | zero => exact fun done b => ⟨fun _ => id, fun h => by cases h⟩
  | succ fuel ih =>
    intro done b
    rw [explore]
    split_ifs with hdone hpath
    · exact ⟨fun _ => id, fun _ => contains_iff_mem.1 hdone⟩
    · exact ⟨fun _ => id, fun h => by cases h⟩
    · cases r.dependencies b with
      | error e => exact ⟨fun _ => id, fun h => by cases h⟩
      | ok deps =>
        have hdeps := ((ih (path ++ [keyOf b])).forEach done deps).1
        dsimp only
        cases hrun : forEach (r.explore fuel (path ++ [keyOf b])) done deps with
        | mk done1 res =>
          rw [hrun] at hdeps
          cases res with
          | error e => exact ⟨hdeps, fun h => by cases h⟩
          | ok _ => exact ⟨subset_cons_of_subset _ hdeps, fun _ => mem_cons_self⟩

/-! ## Truthful memories -/

/-- Binaries that are told apart by their keys and whose requirements are among them. -/
structure Family (r : Search) (P : Binary → Prop) : Prop where
  requires : ∀ {b d}, P b → r.Requires b d → P d
  unique : ∀ {b b'}, P b → P b' → keyOf b = keyOf b' → b = b'

/-- What is remembered of the binaries of a family is right, and all that a finished one reaches is
remembered. -/
structure Truthful (r : Search) (P : Binary → Prop) (m : Memory) (done : List String) : Prop where
  direct : ∀ {b deps}, P b → m.direct.get? (keyOf b) = some deps → r.dependencies b = .ok deps
  covers : ∀ {b d}, P b → keyOf b ∈ done → r.Reaches b d → keyOf d ∈ m.direct.keys

theorem truthful_fresh (r : Search) (P : Binary → Prop) : r.Truthful P {} [] := ⟨nofun, nofun⟩

/-- A memory of more dependencies. -/
structure Extends (m m' : Memory) : Prop where
  keys : m.direct.keys ⊆ m'.direct.keys
  orders : m'.orders = m.orders

theorem Extends.refl (m : Memory) : Extends m m := ⟨fun _ => id, rfl⟩

theorem Extends.trans (h : Extends m m') (h' : Extends m' m'') : Extends m m'' :=
  ⟨Subset.trans h.keys h'.keys, h'.orders.trans h.orders⟩

/-- What is remembered is what would be computed, and is remembered then. -/
theorem Truthful.remembered (hP : r.Family P) (h : r.Truthful P m done) (hb : P b) :
    ∃ m', r.remembered m b = (m', r.dependencies b) ∧ r.Truthful P m' done ∧ Extends m m' ∧
      ∀ deps, r.dependencies b = .ok deps → keyOf b ∈ m'.direct.keys := by
  unfold Search.remembered
  cases hd : m.direct.get? (keyOf b) with
  | some deps =>
    refine ⟨m, ?_, h, .refl m, fun _ _ => Table.mem_keys_of_get? hd⟩
    rw [h.direct hb hd]
  | none =>
    cases hdeps : r.dependencies b with
    | error e => exact ⟨_, rfl, ⟨h.direct, h.covers⟩, ⟨fun _ => id, rfl⟩, nofun⟩
    | ok deps =>
      have hkeys : m.direct.keys ⊆ (m.direct.insert (keyOf b) deps).keys := by
        intro k hk
        rw [Table.mem_keys] at hk ⊢
        rw [Table.get?_insert]
        split_ifs
        · rfl
        · exact hk
      refine ⟨_, rfl, ⟨fun {b'} deps' hb' hget => ?_, fun hb' hk hr => hkeys (h.covers hb' hk hr)⟩,
        ⟨hkeys, rfl⟩, ?_⟩
      · rw [Table.get?_insert] at hget
        split_ifs at hget with hk
        · rw [hP.unique hb' hb hk.symm, hdeps, Option.some.inj hget]
        · exact h.direct hb' hget
      · intro _ _
        rw [Table.mem_keys, Table.get?_insert, if_pos rfl]
        rfl

/-- A step with a memory does what a step without one does, and remembers what is right. -/
def Mirrors (r : Search) (P : Binary → Prop) (f : Visit → Binary → Visit × Except Failure Unit)
    (g : List String → Binary → List String × Except Failure Unit) : Prop :=
  ∀ m done b, P b → r.Truthful P m done →
    ∃ m', f ⟨m, done⟩ b = (⟨m', (g done b).1⟩, (g done b).2) ∧ r.Truthful P m' (g done b).1 ∧
    Extends m m'

theorem Mirrors.forEach {f : Visit → Binary → Visit × Except Failure Unit} (hfg : r.Mirrors P f g)
    (hdeps : ∀ d ∈ deps, P d) (h : r.Truthful P m done) :
    ∃ m', forEach f ⟨m, done⟩ deps = (⟨m', (forEach g done deps).1⟩, (forEach g done deps).2) ∧
      r.Truthful P m' (forEach g done deps).1 ∧ Extends m m' := by
  induction deps generalizing m done with
  | nil => exact ⟨m, rfl, h, .refl m⟩
  | cons d deps ih =>
    rw [forall_mem_cons] at hdeps
    obtain ⟨m1, hf, ht, he⟩ := hfg m done d hdeps.1 h
    rw [forEach, forEach, hf]
    cases hg : g done d with
    | mk done1 res =>
      rw [hg] at ht
      cases res with
      | error e => exact ⟨m1, rfl, ht, he⟩
      | ok _ =>
        obtain ⟨m2, hf2, ht2, he2⟩ := ih hdeps.2 ht
        exact ⟨m2, hf2, ht2, he.trans he2⟩

/-- All that a binary reaches is remembered once its dependencies are finished. -/
theorem Truthful.finish (hP : r.Family P) (h : r.Truthful P m done) (hb : P b)
    (hdeps : r.dependencies b = .ok deps) (hk : keyOf b ∈ m.direct.keys)
    (hdone : ∀ d ∈ deps, keyOf d ∈ done) :
    r.Truthful P m (keyOf b :: done) := by
  refine ⟨h.direct, fun {b' d} hb' hmem hr => ?_⟩
  rcases mem_cons.1 hmem with hkey | hmem
  · rw [hP.unique hb' hb hkey] at hr
    rcases Relation.ReflTransGen.cases_head hr with rfl | ⟨c, hc, hr⟩
    · exact hk
    · exact h.covers (hP.requires hb hc) (hdone c (((dependencies_ok hdeps).2 c).2 hc)) hr
  · exact h.covers hb' hmem hr

theorem visit_mirrors (hP : r.Family P) (fuel : Nat) (path : List String) :
    r.Mirrors P (r.visit fuel path) (r.explore fuel path) := by
  induction fuel generalizing path with
  | zero => exact fun m done b _ h => ⟨m, rfl, h, .refl m⟩
  | succ fuel ih =>
    intro m done b hb h
    rw [visit, explore]
    split_ifs with hdone hpath
    · exact ⟨m, rfl, h, .refl m⟩
    · exact ⟨m, rfl, h, .refl m⟩
    · obtain ⟨m1, hm1, ht1, he1, hk1⟩ := h.remembered hP hb
      rw [hm1]
      cases hd : r.dependencies b with
      | error e => exact ⟨m1, rfl, ht1, he1⟩
      | ok deps =>
        have hdeps : ∀ d ∈ deps, P d :=
          fun d hd' => hP.requires hb (((dependencies_ok hd).2 d).1 hd')
        obtain ⟨m2, hm2, ht2, he2⟩ := (ih (path ++ [keyOf b])).forEach hdeps ht1
        have hfin := ((finishes_explore r fuel (path ++ [keyOf b])).forEach done deps).2
        dsimp only
        rw [hm2]
        cases hrun : forEach (r.explore fuel (path ++ [keyOf b])) done deps with
        | mk done1 res =>
          rw [hrun] at ht2 hfin
          cases res with
          | error e => exact ⟨m2, rfl, ht2, he1.trans he2⟩
          | ok _ =>
            exact ⟨m2, rfl, ht2.finish hP hb hd (he2.keys (hk1 deps hd)) (hfin rfl), he1.trans he2⟩

/-! ## Dependencies by names -/

theorem Locatable.denoted {name : String} (h : r.Locatable b name) :
    ∃ d, r.denoted b name = some d := by
  obtain ⟨path, hl⟩ := h
  obtain ⟨d, hd, -⟩ := hl.exists_binary
  exact ⟨d, denoted_eq_some.2 ⟨path, hl, hd⟩⟩

/-- The binaries that the needed names lead to, one for each name. -/
def supplies (r : Search) (b : Binary) : List Binary := (r.neededNames b).filterMap (r.denoted b)

theorem mem_supplies : d ∈ r.supplies b ↔ r.Requires b d := by
  simp only [supplies, mem_filterMap, denoted_eq_some, Requires]

theorem collect_fresh {vertices seen : List String} {names : List String} {deps deps' : List Binary}
    (hseen : ∀ k, k ∈ seen ↔ k ∈ deps.map keyOf)
    (hv : ∀ d ∈ names.filterMap (r.denoted b), keyOf d ∈ vertices)
    (h : names.foldlM (r.addNeeded b) deps = .ok deps') :
    deps' = deps ++ (Graph.fresh vertices keyOf seen (names.filterMap (r.denoted b))).1 := by
  induction names generalizing deps seen with
  | nil =>
    obtain rfl := Except.ok.inj h
    simp [Graph.fresh]
  | cons name names ih =>
    rw [foldlM_cons] at h
    rcases addNeeded_cases r b deps name with ⟨d, hden, -, hadd⟩ | ⟨searched, hadd, -⟩ <;>
      rw [hadd] at h
    · rw [filterMap_cons_some hden] at hv ⊢
      rw [forall_mem_cons] at hv
      by_cases hs : keyOf d ∈ seen
      · rw [if_pos ((hseen _).1 hs)] at h
        rw [Graph.fresh_seen hs]
        exact ih hseen hv.2 h
      · rw [if_neg fun hk => hs ((hseen _).2 hk)] at h
        rw [Graph.fresh_new hv.1 hs]
        have hseen' : ∀ k, k ∈ keyOf d :: seen ↔ k ∈ (deps ++ [d]).map keyOf := by
          intro k
          rw [mem_cons, hseen, map_append, mem_append, map_singleton, mem_singleton, or_comm]
        rw [ih hseen' hv.2 h, append_assoc]
        rfl
    · cases h

/-- The direct dependencies are the binaries that the names lead to, each at its first name. -/
theorem dependencies_fresh {vertices : List String} (h : r.dependencies b = .ok deps)
    (hv : ∀ d ∈ r.supplies b, keyOf d ∈ vertices) :
    deps = (Graph.fresh vertices keyOf [] (r.supplies b)).1 := by
  rw [dependencies_eq (refuses_of_dependencies h)] at h
  have hnil : ∀ k, k ∈ ([] : List String) ↔ k ∈ ([] : List Binary).map keyOf := by simp
  have hfresh := collect_fresh hnil hv h
  rwa [nil_append] at hfresh

/-! ## The order -/

theorem Truthful.vertex (h : r.Truthful P m done) (hroot : P root) (hdone : keyOf root ∈ done)
    (hb : r.Reaches root b) (hd : d ∈ r.supplies b) : keyOf d ∈ m.direct.keys :=
  h.covers hroot hdone (hb.tail (mem_supplies.1 hd))

theorem Family.reaches (hP : r.Family P) (hroot : P root) (hb : r.Reaches root b) : P b := by
  induction hb with
  | refl => exact hroot
  | tail _ hreq ih => exact hP.requires ih hreq

theorem order_eq (hP : r.Family P) (h : r.Truthful P m done) (hroot : P root)
    (hdone : keyOf root ∈ done) :
    order m root = Graph.breadthFirst m.direct.keys keyOf r.supplies [root] [keyOf root] := by
  have hdeps : ∀ {b}, r.Reaches root b → (m.direct.get? (keyOf b)).getD [] =
      (Graph.fresh m.direct.keys keyOf [] (r.supplies b)).1 := by
    intro b hb
    obtain ⟨deps, hget⟩ := Table.exists_get? (h.covers hroot hdone hb)
    rw [hget]
    exact dependencies_fresh (h.direct (hP.reaches hroot hb) hget) fun d hd =>
      h.vertex hroot hdone hb hd
  refine Graph.breadthFirst_congr (P := r.Reaches root) ?_ ?_ ?_
  · intro b hb d hd
    rw [hdeps hb] at hd
    exact hb.tail (mem_supplies.1 (Graph.fresh_subset hd))
  · intro b hb seen
    rw [hdeps hb, Graph.fresh_fresh (by simp)]
  · intro b hb
    rw [mem_singleton.1 hb]
    exact .refl

/-! ## Resolutions -/

theorem Truthful.forget (h : r.Truthful P m done) (hd : m'.direct = m.direct) :
    r.Truthful P m' [] :=
  ⟨fun hb hget => h.direct hb (hd ▸ hget), fun _ hk => absurd hk not_mem_nil⟩

/-- A binary that is found under its own key. -/
def Normal (r : Search) (b : Binary) : Prop := Binary.ofPath r.files (keyOf b) = .ok b

theorem family_normal (r : Search) : r.Family r.Normal where
  requires _ h := h.ofPath_key
  unique hb hb' hk := Except.ok.inj (hb.symm.trans (by rw [hk, hb']))

/-- Two memories that are right about what was reached have one order. -/
theorem order_congr (hP : r.Family P) (h : r.Truthful P m done) (h' : r.Truthful P m' done)
    (hroot : P root) (hdone : keyOf root ∈ done) : order m root = order m' root := by
  rw [order_eq hP h hroot hdone, order_eq hP h' hroot hdone]
  refine Graph.breadthFirst_congr (P := r.Reaches root) ?_ ?_ ?_
  · exact fun b hb d hd => hb.tail (mem_supplies.1 hd)
  · intro b hb seen
    exact Graph.fresh_vertices (fun d hd => h.vertex hroot hdone hb hd) fun d hd =>
      h'.vertex hroot hdone hb hd
  · intro b hb
    rw [mem_singleton.1 hb]
    exact .refl

theorem resolve_error {s : Visit} {e : Failure} (ho : m.orders.get? (keyOf b) = none)
    (hv : r.visit r.longestChain [] ⟨m, []⟩ b = (s, .error e)) :
    r.resolve m b = (s.memory, .error e) := by
  rw [resolve, ho]
  rw [hv]

theorem resolve_found {s : Visit} (ho : m.orders.get? (keyOf b) = none)
    (hv : r.visit r.longestChain [] ⟨m, []⟩ b = (s, .ok ())) :
    r.resolve m b =
      ({ s.memory with orders := s.memory.orders.insert (keyOf b) (order s.memory b) },
        .ok (order s.memory b)) := by
  rw [resolve, ho]
  rw [hv]

/-- What is remembered of the binaries of a family is right. -/
structure Faithful (r : Search) (P : Binary → Prop) (m : Memory) : Prop where
  truthful : r.Truthful P m []
  orders : ∀ {b found}, P b → m.orders.get? (keyOf b) = some found → (r.resolve {} b).2 = .ok found

theorem faithful_fresh (r : Search) (P : Binary → Prop) : r.Faithful P {} where
  truthful := truthful_fresh r P
  orders _ hget := by cases (show none = some _ from hget)

theorem Faithful.resolve (hP : r.Family P) (h : r.Faithful P m) (hb : P b) :
    ∃ m', r.resolve m b = (m', (r.resolve {} b).2) ∧ r.Faithful P m' := by
  cases ho : m.orders.get? (keyOf b) with
  | some found =>
    refine ⟨m, ?_, h⟩
    rw [h.orders hb ho, Search.resolve, ho]
  | none =>
    have hfin := (finishes_explore r r.longestChain [] [] b).2
    obtain ⟨m1, hv, ht, he⟩ := visit_mirrors hP r.longestChain [] m [] b hb h.truthful
    obtain ⟨m0, hv0, ht0, -⟩ := visit_mirrors hP r.longestChain [] {} [] b hb (truthful_fresh r _)
    -- Both visits end as the visit without a memory does.
    cases hres : r.explore r.longestChain [] [] b with
    | mk done res =>
      rw [hres] at hv ht hv0 ht0 hfin
      cases res with
      | error e =>
        refine ⟨m1, ?_, ht.forget rfl, fun hb' hget => h.orders hb' (he.orders ▸ hget)⟩
        rw [resolve_error ho hv, resolve_error rfl hv0]
      | ok _ =>
        have hfresh : (r.resolve {} b).2 = .ok (order m1 b) := by
          rw [resolve_found rfl hv0, order_congr hP ht ht0 hb (hfin rfl)]
        let m2 : Memory := { m1 with orders := m1.orders.insert (keyOf b) (order m1 b) }
        have htruth : r.Truthful P m2 [] := ht.forget rfl
        refine ⟨m2, ?_, htruth, fun {b' found} hb' hget => ?_⟩
        · rw [hfresh, resolve_found ho hv]
        · rw [Table.get?_insert] at hget
          split_ifs at hget with hk
          · rw [← hP.unique hb hb' hk, hfresh, Option.some.inj hget]
          · exact h.orders hb' (he.orders ▸ hget)

theorem normal_of_ofPath {path : String} (hn : Path.normalize path = path)
    (h : Binary.ofPath r.files path = .ok b) : r.Normal b := by
  have ht : Path.tidy path = path := by rw [← hn, Path.tidy_normalize]
  have hpath : b.path = path := by
    unfold Binary.ofPath at h
    cases hread : r.files.read (Path.tidy path) with
    | error e =>
      dsimp only at h
      rw [hread] at h
      cases h
    | ok data =>
      dsimp only at h
      rw [hread] at h
      rw [← Except.ok.inj h]
      exact ht
  rw [Normal, keyOf, hpath, hn, h]

end CallAtlas.Loader.Search
