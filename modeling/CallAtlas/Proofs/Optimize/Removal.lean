import CallAtlas.Proofs.Optimize.Liveness

/-!
# The symbols that removal leaves

The removal of unreachable symbols leaves the least set of names that holds the symbols alive by
themselves and is closed under references and comdat groups: `globalDce_keeps_least`. The order of
the search and of the removals makes no difference, a second run finds nothing to remove, and with
more names to preserve no fewer are left. Of the comdat group without a name none of this holds,
`sampleNameless_parted`.
-/

namespace CallAtlas.Optimize

open Ir CallAtlas.Graph

variable {m : IrModule} {preserve preserve' live dead : List String} {n k : String}

/-- A set of names that holds the symbols alive by themselves and, with a symbol, all that it keeps
alive. -/
structure KeepsTogether (m : IrModule) (preserve : List String) (S : Set String) : Prop where
  preserved : ∀ n ∈ preserve, n ∈ m.symbolNames → n ∈ S
  reserved : ∀ s ∈ m.definitions, isReserved s.name → s.name ∈ S
  visible : ∀ s ∈ m.definitions, s.isLocal = false → s.linkage.isDiscardable = false → s.name ∈ S
  references : ∀ n ∈ S, ∀ k ∈ m.referencesOf n, k ∈ m.symbolNames → k ∈ S
  groups : ∀ n ∈ S, ∀ k g, groupOf? m n = some g → groupOf? m k = some g → k ∈ S

theorem mem_symbolNames_of_reference (h : k ∈ m.referencesOf n) : n ∈ m.symbolNames := by
  rw [IrModule.mem_symbolNames]
  cases hs : m.symbol? n with
  | none => simp [IrModule.referencesOf, hs] at h
  | some s => rfl

theorem mem_symbolNames_of_definition (hm : m.Keyed) {s : Symbol} (hs : s ∈ m.definitions) :
    s.name ∈ m.symbolNames :=
  IrModule.mem_symbolNames_of_symbol? ((mem_definitions hm).1 hs).1

theorem isRoot_iff {s : Symbol} : isRoot preserve s ↔
    s.name ∈ preserve ∨ isReserved s.name ∨ s.isLocal = false ∧
    s.linkage.isDiscardable = false := by
  simp [isRoot, or_assoc]

theorem isLeast_live (hm : m.Keyed) (preserve : List String) :
    IsLeast {S | KeepsTogether m preserve S} {n | n ∈ liveSymbols m preserve} := by
  have hroot : ∀ s ∈ m.definitions, isRoot preserve s → s.name ∈ liveSymbols m preserve := by
    intro s hs hr
    refine mem_reachable.2 (.root ?_ (mem_symbolNames_of_definition hm hs))
    exact List.mem_append_left _ (List.mem_map_of_mem (List.mem_filter.2 ⟨hs, hr⟩))
  constructor
  · constructor
    · exact fun n hp hn => mem_reachable.2 (.root (List.mem_append_right _ hp) hn)
    · exact fun s hs hr => hroot s hs (isRoot_iff.2 (.inr (.inl hr)))
    · exact fun s hs hl hd => hroot s hs (isRoot_iff.2 (.inr (.inr ⟨hl, hd⟩)))
    · intro n hn k hk hmem
      exact mem_reachable.2 (.step (mem_reachable.1 hn) (mem_keepsAlive.2 (.inl hk)) hmem)
    · intro n hn k g hg hk
      have hmem := mem_symbolNames_of_group hk
      exact mem_reachable.2
        (.step (mem_reachable.1 hn) (mem_keepsAlive.2 (.inr ⟨g, hg, hmem, hk⟩)) hmem)
  · intro S hS n hn
    induction mem_reachable.1 hn with
    | @root v hr hv =>
      rcases (mem_liveRoots hm).1 hr with hp | ⟨s, hs, hd, hroot⟩
      · exact hS.preserved v hp hv
      · obtain rfl := hm.name_eq hs
        have hdef := (mem_definitions hm).2 ⟨hs, hd⟩
        rcases isRoot_iff.1 hroot with hp | hr | ⟨hl, hd⟩
        · exact hS.preserved _ hp hv
        · exact hS.reserved s hdef hr
        · exact hS.visible s hdef hl hd
    | @step u v hu hnext hv ih =>
      rcases mem_keepsAlive.1 hnext with hr | ⟨g, hg, -, hk⟩
      · exact hS.references u (ih (mem_reachable.2 hu)) v hr hv
      · exact hS.groups u (ih (mem_reachable.2 hu)) v g hg hk

/-! ## What is left -/

theorem symbol?_left (h : n ∈ (globalDce m preserve).1.symbolNames) :
    (globalDce m preserve).1.symbol? n = m.symbol? n := by
  rw [symbol?_globalDce, if_pos (mem_symbolNames_globalDce.1 h)]

theorem groupOf?_left (h : n ∈ (globalDce m preserve).1.symbolNames) :
    groupOf? (globalDce m preserve).1 n = groupOf? m n := by
  rw [groupOf?, symbol?_left h, groupOf?]

theorem get?_comdats_globalDce {g kind : String} :
    (globalDce m preserve).1.comdats.get? g = some kind ↔
    m.comdats.get? g = some kind ∧ ∃ n ∈ (globalDce m preserve).1.symbolNames,
    groupOf? m n = some g := by
  have hgroups : ∀ n, groupOf? (restrictSymbols m (liveSymbols m preserve)) n =
      groupOf? (globalDce m preserve).1 n := fun n => rfl
  show ((m.comdats.filter _).get? g = some kind) ↔ _
  rw [Table.get?_filter_key]
  simp only [List.contains_iff_mem, List.mem_filterMap, hgroups]
  constructor
  · intro h
    split_ifs at h with hused
    obtain ⟨n, hn, hg⟩ := hused
    exact ⟨h, n, hn, by rwa [groupOf?_left hn] at hg⟩
  · rintro ⟨h, n, hn, hg⟩
    rw [if_pos ⟨n, hn, by rwa [groupOf?_left hn]⟩, h]

/-! ## Other runs -/

theorem liveSymbols_mono (h : preserve ⊆ preserve') (hn : n ∈ liveSymbols m preserve) :
    n ∈ liveSymbols m preserve' := by
  rw [liveSymbols, mem_reachable] at hn ⊢
  induction hn with
  | @root v hr hv =>
    refine .root ?_ hv
    rcases List.mem_append.1 hr with hr | hp
    · obtain ⟨s, hs, rfl⟩ := List.mem_map.1 hr
      obtain ⟨hs, hr⟩ := List.mem_filter.1 hs
      refine List.mem_append_left _ (List.mem_map_of_mem (List.mem_filter.2 ⟨hs, ?_⟩))
      exact isRoot_iff.2 ((isRoot_iff.1 hr).imp_left fun hp => h hp)
    · exact List.mem_append_right _ (h hp)
  | step _ hn hv ih => exact .step ih hn hv

theorem keyed_globalDce (hm : m.Keyed) (preserve : List String) :
    (globalDce m preserve).1.Keyed where
  function e he := hm.function e (List.mem_filter.1 he).1
  global e he := hm.global e (List.mem_filter.1 he).1
  disjoint x hf hg :=
    hm.disjoint x ((List.filter_sublist.map _).subset hf) ((List.filter_sublist.map _).subset hg)

theorem live_globalDce (hm : m.Keyed) (hn : n ∈ liveSymbols m preserve) :
    n ∈ liveSymbols (globalDce m preserve).1 preserve := by
  have hleft {v : String}
      (h : Graph.Reached m.symbolNames (keepsAlive m) (liveRoots m preserve) v) :
      v ∈ (globalDce m preserve).1.symbolNames := mem_symbolNames_globalDce.2 (mem_reachable.2 h)
  refine mem_reachable.2 ?_
  induction mem_reachable.1 hn with
  | @root v hr hv =>
    have hv' := hleft (.root hr hv)
    refine .root ((mem_liveRoots (keyed_globalDce hm preserve)).2 ?_) hv'
    refine ((mem_liveRoots hm).1 hr).imp_right ?_
    rintro ⟨s, hs, hd, hroot⟩
    exact ⟨s, by rw [symbol?_left hv', hs], hd, hroot⟩
  | @step u v hu hnext hv ih =>
    have hv' := hleft (.step hu hnext hv)
    refine .step (ih (mem_reachable.2 hu)) (mem_keepsAlive.2 ?_) hv'
    refine (mem_keepsAlive.1 hnext).imp ?_ ?_
    · intro hr
      rwa [IrModule.referencesOf, symbol?_left (hleft hu)]
    · rintro ⟨g, hg, -, hk⟩
      exact ⟨g, by rwa [groupOf?_left (hleft hu)], hv', by rwa [groupOf?_left hv']⟩

theorem filter_of_forall {κ ν : Type} {t : Table κ ν} {p : κ → ν → Bool}
    (h : ∀ e ∈ t.entries, p e.1 e.2) :
    t.filter p = t :=
  Table.ext (List.filter_eq_self.2 h)

theorem foldl_erase {ν : Type} (dead : List String) (t : Table String ν) :
    dead.foldl Table.erase t = t.filter fun n _ => !dead.contains n := by
  induction dead generalizing t with
  | nil => exact (filter_of_forall fun e _ => rfl).symm
  | cons x dead ih =>
    rw [List.foldl_cons, ih]
    refine Table.ext ?_
    show (t.entries.filter _).filter _ = t.entries.filter _
    rw [List.filter_filter]
    refine List.filter_congr fun e _ => ?_
    by_cases hx : e.1 = x <;> simp [hx]

theorem foldl_removeSymbol (dead : List String) (m : IrModule) :
    dead.foldl IrModule.removeSymbol m =
      { m with
      functions := dead.foldl Table.erase m.functions
      globals := dead.foldl Table.erase m.globals } := by
  induction dead generalizing m with
  | nil => rfl
  | cons x dead ih => rw [List.foldl_cons, ih]; rfl

/-- Removing the dead symbols one after the other leaves the live ones. -/
theorem foldl_removeSymbol_dead (hd : ∀ n, n ∈ dead ↔ n ∈ m.symbolNames ∧ n ∉ live) :
    dead.foldl IrModule.removeSymbol m = restrictSymbols m live := by
  have hkey : ∀ n ∈ m.symbolNames, (!dead.contains n) = live.contains n := by
    intro n hn
    rw [Bool.eq_iff_iff, Bool.not_eq_true', ← Bool.not_eq_true, List.contains_iff_mem,
      List.contains_iff_mem, hd]
    tauto
  rw [foldl_removeSymbol, foldl_erase, foldl_erase]
  congr 1
  · exact Table.ext (List.filter_congr fun e he =>
      hkey _ (IrModule.mem_symbolNames_of_globals (List.mem_map_of_mem he)))
  · exact Table.ext (List.filter_congr fun e he =>
      hkey _ (List.mem_append_left _ (List.mem_map_of_mem he)))

theorem dropUnusedGroups_again (m : IrModule) :
    dropUnusedGroups (dropUnusedGroups m) = dropUnusedGroups m := by
  have hc : (dropUnusedGroups m).comdats.filter
      (fun n _ =>
        ((dropUnusedGroups m).symbolNames.filterMap (groupOf? (dropUnusedGroups m))).contains n) =
        (dropUnusedGroups m).comdats := filter_of_forall fun e he => (List.mem_filter.1 he).2
  rw [dropUnusedGroups, hc]

theorem globalDce_again (hm : m.Keyed) (preserve : List String) :
    globalDce (globalDce m preserve).1 preserve = ((globalDce m preserve).1, 0) := by
  have hall : ∀ n ∈ (globalDce m preserve).1.symbolNames,
      n ∈ liveSymbols (globalDce m preserve).1 preserve :=
    fun n hn => live_globalDce hm (mem_symbolNames_globalDce.1 hn)
  have hnone : (globalDce m preserve).1.symbolNames.filter
      (fun n => !(liveSymbols (globalDce m preserve).1 preserve).contains n) = [] :=
    List.filter_eq_nil_iff.2 fun n hn => by simp [hall n hn]
  have hrest : restrictSymbols (globalDce m preserve).1
      (liveSymbols (globalDce m preserve).1 preserve) =
      (globalDce m preserve).1 :=
        (foldl_removeSymbol_dead (by simpa using hall) : [].foldl _ _ = _).symm
  rw [globalDce, hrest, hnone]
  exact congrArg (·, 0) (dropUnusedGroups_again _)

/-! ## Searches and removals in any order -/

/-- What a removal comes to that searches for live symbols, and then removes the others, in any
order. -/
def Sweeps (m : IrModule) (preserve : List String) (result : IrModule × Nat) : Prop :=
  ∃ work live dead : List String, (∀ n, n ∈ work ↔ n ∈ liveRoots m preserve ∧ n ∈ m.symbolNames) ∧
    Relation.ReflTransGen (Graph.Step m.symbolNames (keepsAlive m)) (work, []) ([], live) ∧
    dead.Nodup ∧ (∀ n, n ∈ dead ↔ n ∈ m.symbolNames ∧ n ∉ live) ∧
    result = (dropUnusedGroups (dead.foldl IrModule.removeSymbol m), dead.length)

theorem restrictSymbols_congr {live' : List String} (h : ∀ n, n ∈ live ↔ n ∈ live') :
    restrictSymbols m live = restrictSymbols m live' := by
  have hc : ∀ n, live.contains n = live'.contains n := fun n => by
    rw [Bool.eq_iff_iff, List.contains_iff_mem, List.contains_iff_mem, h]
  simp only [restrictSymbols, hc]

theorem sweeps_iff {result : IrModule × Nat} :
    Sweeps m preserve result ↔ result = globalDce m preserve := by
  have hresult {work live dead : List String} (hw : ∀ n, n ∈ work ↔ n ∈ liveRoots m preserve ∧
      n ∈ m.symbolNames)
      (hrun : Relation.ReflTransGen (Graph.Step m.symbolNames (keepsAlive m)) (work, []) ([], live))
      (hnd : dead.Nodup) (hd : ∀ n, n ∈ dead ↔ n ∈ m.symbolNames ∧ n ∉ live) :
      (dropUnusedGroups (dead.foldl IrModule.removeSymbol m), dead.length) =
      globalDce m preserve := by
    have hlive : ∀ n, n ∈ live ↔ n ∈ liveSymbols m preserve := fun n =>
      (mem_visited hw hrun).trans mem_reachable.symm
    have hperm : dead.Perm (m.symbolNames.filter fun n =>
        !(liveSymbols m preserve).contains n) := by
      refine (List.perm_ext_iff_of_nodup hnd (m.nodup_symbolNames.filter _)).2 fun n => ?_
      rw [hd, hlive]
      simp
    rw [foldl_removeSymbol_dead hd, restrictSymbols_congr hlive, hperm.length_eq]
    rfl
  constructor
  · rintro ⟨work, live, dead, hw, hrun, hnd, hd, rfl⟩
    exact hresult hw hrun hnd hd
  · rintro rfl
    let work := (liveRoots m preserve).filter (· ∈ m.symbolNames)
    have hw : ∀ n, n ∈ work ↔ n ∈ liveRoots m preserve ∧ n ∈ m.symbolNames := by simp [work]
    obtain ⟨live, hrun⟩ := exists_search work [] fun n hn => ((hw n).1 hn).2
    let dead := m.symbolNames.filter fun n => n ∉ live
    have hd : ∀ n, n ∈ dead ↔ n ∈ m.symbolNames ∧ n ∉ live := by simp [dead]
    have hnd : dead.Nodup := m.nodup_symbolNames.filter _
    exact ⟨work, live, dead, hw, hrun, hnd, hd, (hresult hw hrun hnd hd).symm⟩

/-- The removal of unreachable symbols leaves exactly the least set of names that holds the symbols
alive by themselves and is closed under references and comdat groups, and the comdat groups that
these symbols name. The order of the search and of the removals makes no difference, a second run
removes nothing, and with more names to preserve no symbol less is left. -/
theorem globalDce_keeps_least (m : IrModule) (hm : m.Keyed) (preserve : List String) :
    ∃ m' removed, Pass.globalDce.run m preserve = .ok (m', removed) ∧
      IsLeast {S | KeepsTogether m preserve S} {n | n ∈ m'.symbolNames} ∧
      (∀ n ∈ m'.symbolNames, m'.symbol? n = m.symbol? n) ∧
      removed = (m.symbolNames.filter (· ∉ m'.symbolNames)).length ∧
      (∀ g kind, m'.comdats.get? g = some kind ↔
        m.comdats.get? g = some kind ∧ ∃ n ∈ m'.symbolNames, groupOf? m n = some g) ∧
      WellFounded (fun t s => Graph.Step m.symbolNames (keepsAlive m) s t) ∧
      (∀ result, Sweeps m preserve result ↔ result = (m', removed)) ∧
      Pass.globalDce.run m' preserve = .ok (m', 0) ∧
      ∀ preserve', preserve ⊆ preserve' →
      m'.symbolNames ⊆ (globalDce m preserve').1.symbolNames := by
  refine ⟨(globalDce m preserve).1, (globalDce m preserve).2, rfl, ?_, fun n => symbol?_left, ?_,
    fun g kind => get?_comdats_globalDce, Graph.wellFounded_step, fun result => sweeps_iff,
    congrArg Except.ok (globalDce_again hm preserve), ?_⟩
  · simpa only [mem_symbolNames_globalDce] using isLeast_live hm preserve
  · refine congrArg List.length (List.filter_congr fun n _ => ?_)
    simp only [mem_symbolNames_globalDce]
    simp
  · intro preserve' h n hn
    exact mem_symbolNames_globalDce.2 (liveSymbols_mono h (mem_symbolNames_globalDce.1 hn))

/-- The list keeps the member of a group, the member the group's other symbol; the declaration that
nothing mentions is removed. -/
theorem sampleProgram_swept : sampleProgram.Keyed ∧
    ∃ m' removed, Pass.globalDce.run sampleProgram [] = .ok (m', removed) ∧
      "data" ∈ m'.symbolNames ∧
      "printf" ∉ m'.symbolNames ∧
      (∀ result, Sweeps sampleProgram [] result ↔ result = (m', removed)) ∧
      Pass.globalDce.run m' [] = .ok (m', 0) := by
  have hm : sampleProgram.Keyed := ⟨by decide +kernel, by decide +kernel, by decide +kernel⟩
  obtain ⟨m', removed, hrun, ⟨hkeeps, hleast⟩, -, -, -, -, hsweeps, hagain, -⟩ :=
    globalDce_keeps_least sampleProgram hm []
  refine ⟨hm, m', removed, hrun, ?_, ?_, hsweeps, hagain⟩
  · have hroot : ∃ s ∈ sampleProgram.definitions, s.name = "member" ∧ s.isLocal = false ∧
        s.linkage.isDiscardable = false := by decide +kernel
    obtain ⟨s, hs, hname, hl, hd⟩ := hroot
    have hmember : s.name ∈ m'.symbolNames := hkeeps.visible s hs hl hd
    rw [hname] at hmember
    exact hkeeps.groups "member" hmember "data" "group" (by decide +kernel) (by decide +kernel)
  · have hmentions : ∀ n ∈ sampleProgram.symbolNames, "printf" ∉ sampleProgram.referencesOf n := by
      decide +kernel
    have hnames : ∀ s ∈ sampleProgram.definitions, s.name ≠ "printf" := by decide +kernel
    have hrest : KeepsTogether sampleProgram [] {n | n ≠ "printf"} := by
      refine ⟨by simp, fun s hs _ => hnames s hs, fun s hs _ _ => hnames s hs, ?_, ?_⟩
      · rintro n - k hk - rfl
        exact hmentions n (mem_symbolNames_of_reference hk) hk
      · rintro n - k g - hk rfl
        cases hk
    exact fun h => hleast hrest h rfl

/-- Two global values in the comdat group without a name, of which one may be discarded. -/
def sampleNameless : IrModule where
  comdats := .ofList [("", "any")]
  globals := .ofList [
    ("a", ⟨"a", "global i32 1, comdat($\"\")"⟩),
    ("b", ⟨"b", "linkonce global i32 2, comdat($\"\")"⟩)]

/-- The comdat group without a name is not kept together, and it is removed though a symbol that is
left names it. -/
theorem sampleNameless_parted : sampleNameless.Keyed ∧
    (sampleNameless.symbol? "a").bind Symbol.comdat = some "" ∧
    (sampleNameless.symbol? "b").bind Symbol.comdat = some "" ∧
    "a" ∈ (globalDce sampleNameless []).1.symbolNames ∧
    "b" ∉ (globalDce sampleNameless []).1.symbolNames ∧
    sampleNameless.comdats.get? "" = some "any" ∧
    (globalDce sampleNameless []).1.comdats.get? "" = none := by
  have hm : sampleNameless.Keyed := ⟨by decide +kernel, by decide +kernel, by decide +kernel⟩
  have hnames : ∀ n ∈ sampleNameless.symbolNames,
      sampleNameless.referencesOf n = [] ∧ groupOf? sampleNameless n = none := by decide +kernel
  have hgroups : ∀ n, groupOf? sampleNameless n = none := by
    intro n
    by_contra hn
    obtain ⟨g, hg⟩ := Option.ne_none_iff_exists'.1 hn
    exact hn (hnames n (mem_symbolNames_of_group hg)).2
  have halone : KeepsTogether sampleNameless [] {"a"} := by
    refine ⟨by simp, by decide +kernel, by decide +kernel, ?_, ?_⟩
    · rintro n rfl k hk -
      rw [(hnames "a" (by decide +kernel)).1] at hk
      cases hk
    · rintro n rfl k g hg
      cases hg
  obtain ⟨hkeeps, hleast⟩ := isLeast_live hm []
  refine ⟨hm, by decide +kernel, by decide +kernel, mem_symbolNames_globalDce.2 ?_,
    ?_, by decide +kernel, ?_⟩
  · have hroot : ∃ s ∈ sampleNameless.definitions, s.name = "a" ∧ s.isLocal = false ∧
        s.linkage.isDiscardable = false := by decide +kernel
    obtain ⟨s, hs, hname, hl, hd⟩ := hroot
    exact hname ▸ hkeeps.visible s hs hl hd
  · exact fun h => absurd (hleast halone (mem_symbolNames_globalDce.1 h)) (by decide)
  · cases hc : (globalDce sampleNameless []).1.comdats.get? "" with
    | none => rfl
    | some kind =>
      obtain ⟨-, n, -, hg⟩ := get?_comdats_globalDce.1 hc
      rw [hgroups] at hg
      cases hg

end CallAtlas.Optimize
