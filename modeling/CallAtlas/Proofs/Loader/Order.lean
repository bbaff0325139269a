import CallAtlas.Proofs.Loader.Memory

/-!
# The order in which a loader finds binaries

`resolve_order`: a resolution on a fresh memory that ends has found the root and all that is
reachable from it, each key once, in breadth-first order. Distances from the root do not fall along
the order, and a binary comes where it is discovered (`FoundBy`): by the first binary that requires
it, and there at the first name that leads to it, where the fixed dependencies stand before those
that the binary names itself.
-/

namespace CallAtlas.Loader.Search

open Container List

variable {r : Search} {root b d : Binary} {out : List Binary}

/-! ## Keys of an acyclic graph -/

theorem Reaches.leads (h : r.Reaches root b) :
    Relation.ReflTransGen (r.Leads root) (keyOf root) (keyOf b) := by
  induction h with
  | refl => exact .refl
  | tail hb hreq ih => exact ih.tail ⟨_, _, hb, hreq, rfl, rfl⟩

theorem Acyclic.family (h : r.Acyclic root) : r.Family (r.Reaches root) where
  requires hb hreq := hb.tail hreq
  unique := by
    have hroot : ∀ {a b}, r.Reaches root a → r.Requires a b → keyOf b ≠ keyOf root := by
      intro a b ha hab hk
      have hcycle := Relation.TransGen.tail' ha.leads ⟨a, b, ha, hab, rfl, rfl⟩
      rw [hk] at hcycle
      exact h _ hcycle
    intro b b' hb hb' hk
    rcases Relation.ReflTransGen.cases_tail hb with rfl | ⟨a, ha, hab⟩ <;>
      rcases Relation.ReflTransGen.cases_tail hb' with rfl | ⟨a', ha', hab'⟩
    · rfl
    · exact absurd hk.symm (hroot ha' hab')
    · exact absurd hk (hroot ha hab)
    · exact hab.unique hab' hk

theorem resolve_ok (h : (r.resolve {} root).2 = .ok out) :
    r.Acyclic root ∧ (∀ b, r.Reaches root b → r.Supplied b) ∧
      ∃ m done, r.Truthful (r.Reaches root) m done ∧ keyOf root ∈ done ∧ out = order m root := by
  rcases resolve_cases r root with ⟨s, bs, hv, hfinished, hd, hroot, hok⟩ | ⟨e, -, herr⟩
  · have hacyclic := hfinished.acyclic hd hroot
    obtain ⟨m, hm, ht, -⟩ :=
      visit_mirrors hacyclic.family r.longestChain [] {} [] root .refl (truthful_fresh r _)
    have hfin := (finishes_explore r r.longestChain [] [] root).2
    rw [hv, Prod.mk.injEq] at hm
    obtain ⟨rfl, hres⟩ := hm
    refine ⟨hacyclic, fun b hb => (hfinished.mem (hfinished.reaches hroot hb)).2.1, m, _, ht,
      hfin hres.symm, ?_⟩
    exact Except.ok.inj (h.symm.trans hok)
  · rw [herr] at h
    cases h

theorem resolve_normal (h : (r.resolve {} root).2 = .ok out) (hd : d ∈ out) : r.Normal d := by
  obtain ⟨hacyclic, -, m, done, ht, hdone, rfl⟩ := resolve_ok h
  rw [order_eq hacyclic.family ht .refl hdone] at hd
  obtain ⟨a, ha⟩ := Graph.exists_next hd
  exact (mem_supplies.1 ha).ofPath_key

/-! ## Discovery by names -/

/-- A name that `b` needs leads to `d`. -/
def Denotes (r : Search) (b : Binary) (name : String) (d : Binary) : Prop :=
  ∃ path, r.Locates b name path ∧ Binary.ofPath r.files path = .ok d

/-- The name at `p.2` of the binary at `p.1` of a list leads to `d`, and neither a name of it before
nor a binary before does. -/
structure FoundBy (r : Search) (l : List Binary) (d : Binary) (p : Nat × Nat) : Prop where
  name : ∃ b name, l[p.1]? = some b ∧ (r.neededNames b)[p.2]? = some name ∧ r.Denotes b name d ∧
    ∀ other ∈ (r.neededNames b).take p.2, ¬ r.Denotes b other d
  first : ∀ b ∈ l.take p.1, ¬ r.Requires b d

theorem map_some_supplies (h : r.Supplied b) :
    (r.supplies b).map some = (r.neededNames b).map (r.denoted b) := by
  have hall : ∀ names : List String, (∀ name ∈ names, r.Locatable b name) →
      (names.filterMap (r.denoted b)).map some = names.map (r.denoted b) := by
    intro names hn
    induction names with
    | nil => rfl
    | cons name names ih =>
      rw [forall_mem_cons] at hn
      obtain ⟨d, hd⟩ := hn.1.denoted
      rw [filterMap_cons_some hd, map_cons, map_cons, ih hn.2, hd]
  exact hall _ h

theorem foundBy_of_foundAt {l : List Binary} {p : Nat × Nat} (hl : ∀ b ∈ l, r.Supplied b)
    (h : Graph.FoundAt keyOf r.supplies l d p) : r.FoundBy l d p := by
  obtain ⟨⟨b, hb, hd, hkey⟩, hfirst⟩ := h
  have hsome := map_some_supplies (hl b (mem_of_getElem? hb))
  refine ⟨?_, fun a ha hreq => hfirst a ha (mem_supplies.2 hreq)⟩
  have hget : ((r.neededNames b).map (r.denoted b))[p.2]? = some (some d) := by
    rw [← hsome, getElem?_map, hd]
    rfl
  rw [getElem?_map, Option.map_eq_some_iff] at hget
  obtain ⟨name, hname, hden⟩ := hget
  refine ⟨b, name, hb, hname, denoted_eq_some.1 hden, fun other hother hother' => hkey ?_⟩
  have hmem : some d ∈ ((r.supplies b).map some).take p.2 := by
    rw [hsome, ← map_take]
    exact mem_map.2 ⟨other, hother, denoted_eq_some.2 hother'⟩
  rw [← map_take, mem_map] at hmem
  obtain ⟨d', hd', he⟩ := hmem
  exact mem_map.2 ⟨d', hd', by rw [Option.some.inj he]⟩

/-! ## The order -/

/-- The least number of requirements from the root to a binary. -/
def Distance (r : Search) (root b : Binary) (n : Nat) : Prop := Graph.Distance r.Requires root b n

/-- The binaries that a resolution on a fresh memory finds. -/
theorem resolve_order (h : (r.resolve {} root).2 = .ok out) :
    ((root :: out).map keyOf).Nodup ∧ (∀ b, b ∈ root :: out ↔ r.Reaches root b) ∧
    (∃ distance : Binary → Nat, (∀ b ∈ out, r.Distance root b (distance b)) ∧
      out.Pairwise fun b d => distance b ≤ distance d) ∧
    ∃ places : List (Nat × Nat), List.Forall₂ (r.FoundBy (root :: out)) out places ∧
      places.Pairwise (Prod.Lex (· < ·) (· < ·)) := by
  obtain ⟨hacyclic, hsup, m, done, ht, hdone, rfl⟩ := resolve_ok h
  have hrel : (fun b d => d ∈ r.supplies b) = r.Requires := by
    funext b d
    rw [mem_supplies]
  have hc : Graph.Closed m.direct.keys keyOf r.supplies
      (Relation.ReflTransGen (fun b d => d ∈ r.supplies b) root) := by
    rw [hrel]
    exact ⟨fun hb hd => ht.vertex .refl hdone hb hd, fun hb hd => hb.tail (mem_supplies.1 hd),
      hacyclic.family.unique⟩
  obtain ⟨places, ho⟩ := Graph.breadthFirst_sound hc
  rw [← order_eq hacyclic.family ht .refl hdone] at ho
  have hmem : ∀ b, b ∈ root :: order m root ↔ r.Reaches root b := fun b => by rw [ho.mem, hrel]; rfl
  refine ⟨ho.distinct, hmem, ?_, places, ?_, ho.sorted⟩
  · have hdist : ∀ b, ∃ n, b ∈ order m root → r.Distance root b n := by
      intro b
      by_cases hb : b ∈ order m root
      · obtain ⟨n, hn⟩ := Graph.exists_distance ((hmem b).1 (mem_cons_of_mem _ hb))
        exact ⟨n, fun _ => hn⟩
      · exact ⟨0, fun hb' => absurd hb' hb⟩
    choose distance hdistance using hdist
    refine ⟨distance, hdistance, pairwise_iff_getElem.2 fun i j hi hj hij => ?_⟩
    have hi' : (root :: order m root)[i + 1]? = some (order m root)[i] := getElem?_eq_getElem hi
    have hj' : (root :: order m root)[j + 1]? = some (order m root)[j] := getElem?_eq_getElem hj
    have hd : ∀ b ∈ order m root,
        Graph.Distance (fun b d => d ∈ r.supplies b) root b (distance b) := by
      rw [hrel]
      exact hdistance
    exact ho.distance_le (Nat.succ_le_succ hij.le) hi' hj' (hd _ (getElem_mem hi))
      (hd _ (getElem_mem hj))
  · exact ho.found.imp fun _ _ hf => foundBy_of_foundAt (fun b hb => hsup b ((hmem b).1 hb)) hf

/-- A program with fixed dependencies, one of which it also names, in another spelling. -/
def sampleLoader : Search where
  files := { files := .ofList (["app", "liba.so", "libb.so", "libd.so", "libe.so", "libz.so"].map
    fun n => (["work", n], ⟨[], false⟩)) }
  needs :=
    .ofTables (.ofList [("app", ["./liba.so", "libd.so"]), ("liba.so", ["libd.so", "libe.so"]),
    ("libb.so", ["libe.so", "libz.so"])]) .empty
  searchPaths := ["."]
  staticOrder := .ofList [("app", ["libb.so", "liba.so"])]
  systemLibraries := []

theorem sampleLoader_order :
    ∃ out, (sampleLoader.resolve {} sampleRoot).2 = .ok out ∧
      out.map Binary.path = ["libb.so", "liba.so", "libd.so", "libe.so", "libz.so"] ∧
      ∃ places : List (Nat × Nat),
        List.Forall₂ (sampleLoader.FoundBy (sampleRoot :: out)) out places ∧
        places.Pairwise (Prod.Lex (· < ·) (· < ·)) := by
  have hok : (sampleLoader.resolve {} sampleRoot).2.map (map Binary.path) =
      .ok ["libb.so", "liba.so", "libd.so", "libe.so", "libz.so"] := by decide +kernel
  cases h : (sampleLoader.resolve {} sampleRoot).2 with
  | error e =>
    rw [h] at hok
    cases hok
  | ok out =>
    rw [h] at hok
    exact ⟨out, rfl, Except.ok.inj hok, (resolve_order h).2.2.2⟩

end CallAtlas.Loader.Search
