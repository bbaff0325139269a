import CallAtlas.Proofs.Link.Journey

/-!
# The symbols after a join

`merge_step` says what the symbols of the destination are after one more module was joined: local
symbols of both sides stand under names of their own, a visible symbol stays if the incoming module
has none of its name, and where both have one the two meet. What a join does to the rest of the
destination is `merge_rest`.
-/

namespace CallAtlas.Link

open Ir IrModule List

variable {m : IrModule} {s : Symbol} {x : String}

/-! ## The symbols that are joined -/

theorem map_name_globals (hm : m.WellNamed) :
    (m.globals.values.map Symbol.global).map Symbol.name = m.globals.keys := by
  simp only [Table.values, map_map]
  exact map_congr_left fun e he => hm.global e he

theorem map_name_functions (hm : m.WellNamed) :
    (m.functions.values.map Symbol.function).map Symbol.name = m.functions.keys := by
  simp only [Table.values, map_map]
  exact map_congr_left fun e he => (hm.function e he).1

theorem nodup_symbolsInOrder (hm : m.WellNamed) : ((symbolsInOrder m).map Symbol.name).Nodup := by
  rw [symbolsInOrder, map_append, map_name_globals hm, map_name_functions hm, nodup_append]
  refine ⟨m.globals.distinct, m.functions.distinct, ?_⟩
  intro a ha b hb hab
  exact hm.disjoint b hb (hab ▸ ha)

theorem mem_symbolsInOrder_iff : s ∈ symbolsInOrder m ↔ ∃ x, m.Holds x s := by
  unfold symbolsInOrder
  cases s with
  | function f => simp [Table.mem_values, IrModule.Holds]
  | global g => simp [Table.mem_values, IrModule.Holds]

theorem mem_symbolsInOrder (hm : m.WellNamed) :
    s ∈ symbolsInOrder m ↔ m.symbol? s.name = some s := by
  rw [mem_symbolsInOrder_iff, hm.keyed.symbol?_iff]
  constructor
  · rintro ⟨x, h⟩
    rwa [(hm.holds h).1]
  · exact fun h => ⟨_, h⟩

theorem mem_symbolsInOrder_of_symbol? (h : m.symbol? x = some s) : s ∈ symbolsInOrder m :=
  mem_symbolsInOrder_iff.2 ⟨x, holds_of_symbol? h⟩

/-! ## The rest of a join -/

theorem mergeNamed_eq (dest : IrModule) (named : List (String × List Nat)) (offset : Nat) :
    mergeNamed dest named offset =
      { dest with namedMetadata := (mergeNamed dest named offset).namedMetadata } := by
  induction named generalizing dest with
  | nil => rfl
  | cons e named ih => exact ih _

theorem mergeRest_with (dest src : IrModule) (metadataOffset attributeOffset : Nat) :
    ∃ namedMetadata, mergeRest dest src metadataOffset attributeOffset = { dest with
      comdats := addNew dest.comdats src.comdats.entries
      attributeGroups := dest.attributeGroups.insertMany
          (src.attributeGroups.entries.map fun e => (e.1 + attributeOffset, e.2))
      metadata := dest.metadata.insertMany
        (src.metadata.entries.map fun e => (e.1 + metadataOffset, ⟨e.1 + metadataOffset, e.2.text⟩))
      namedMetadata := namedMetadata
      extraLines := addLines dest.extraLines src.extraLines } := by
  unfold mergeRest
  dsimp only
  rw [mergeNamed_eq]
  exact ⟨_, rfl⟩

theorem types_renameSymbols (m : IrModule) (mapping : Table String String) :
    (m.renameSymbols mapping).types = m.types.map (renameGlobals mapping.get?) := by
  unfold renameSymbols
  split_ifs with he
  · rw [renameGlobals_of_isEmpty he]
    exact (Table.map_eq_self fun _ _ => rfl).symm
  · rfl

theorem SameRest.retexted {m' : IrModule} (h : SameRest m m') : Retexted id m m' := by
  rw [h]
  exact ⟨rfl, rfl, rfl, rfl, rfl, (Table.map_eq_self fun _ _ => rfl).symm⟩

/-- Everything but the symbols of the destination after a module was joined. -/
structure RestStep (g : Merger) (src : IrModule) (g' : Merger) : Prop where
  triple : agree g.dest.targetTriple src.targetTriple = some g'.dest.targetTriple
  layout : agree g.dest.dataLayout src.dataLayout = some g'.dest.dataLayout
  types : g'.dest.types = (addNew g.dest.types (g.retyped src).types.entries).map
    (g.yielding src).text
  comdats : g'.dest.comdats = addNew g.dest.comdats src.comdats.entries
  groups : g'.dest.attributeGroups = g.dest.attributeGroups.insertMany
    (src.attributeGroups.entries.map fun e => (e.1 + g.dest.nextAttributeGroup, e.2))
  nodes : g'.dest.metadata = (rewriteNodes (g.yielding src).text g.dest.metadata).insertMany
    (src.metadata.entries.map fun e =>
      (e.1 + g.dest.nextMetadata, ⟨e.1 + g.dest.nextMetadata, (g.arrival src).text e.2.text⟩))

theorem merge_rest {g g' : Merger} {src : IrModule} (h : g.merge src = .ok g') :
    RestStep g src g' := by
  obtain ⟨g1, triple, layout, filename, g2, ⟨-, ht, hl⟩, hj, rfl⟩ := merge_ok h
  obtain ⟨named, hr⟩ :=
    mergeRest_with g2.dest (g.arrived src) g.dest.nextMetadata g.dest.nextAttributeGroup
  have hd := (retexted_renameSymbols _ _).trans (sameRest_mergeSymbols hj).retexted
  have ha := retexted_arrived g src
  unfold finish
  rw [ha.comdats, ha.groups, ha.nodes] at hr
  refine ⟨?_, ?_, ?_, ?_, ?_, ?_⟩ <;> rw [hr]
  · exact ht.trans (congrArg some hd.triple.symm)
  · exact hl.trans (congrArg some hd.layout.symm)
  · exact (congrArg IrModule.types (sameRest_mergeSymbols hj)).trans (types_renameSymbols _ _)
  · exact congrArg (addNew · _) hd.comdats
  · exact congrArg (Table.insertMany · _) hd.groups
  · simp only [hd.nodes, rewriteNodes, Table.map, map_map]
    rfl

theorem get?_renameKeys {t mapping : Table String String} {y : String} (hk : y ∉ mapping.keys)
    (hv : y ∉ mapping.values) : (renameKeys t mapping).get? y = t.get? y := by
  unfold renameKeys
  unfold Table.keys at hk
  unfold Table.values at hv
  generalize mapping.entries = es at hk hv ⊢
  induction es generalizing t with
  | nil => rfl
  | cons e r ih =>
    rw [map_cons, mem_cons, not_or] at hk hv
    rw [foldl_cons, ih hk.2 hv.2]
    cases t.get? e.1 with
    | none => rfl
    | some v =>
      simp only [Table.get?_insert, Table.get?_erase]
      rw [if_neg (Ne.symm hv.1), if_neg (Ne.symm hk.1)]

/-! ## One join -/

/-- The symbols of the destination after a module was joined. -/
structure MergeStep (g : Merger) (src : IrModule) (g' : Merger) : Prop where
  wellNamed : g'.dest.WellNamed
  /-- Local symbols joined before. -/
  dest_local : ∀ {x s}, g.dest.symbol? x = some s → s.isLocal →
    g'.dest.symbol? ((g.yielding src).name x) = some ((g.yielding src).symbol s)
  /-- Local symbols of the incoming module. -/
  source_local : ∀ {x s}, src.symbol? x = some s → s.isLocal →
    g'.dest.symbol? ((g.arrival src).name x) = some ((g.arrival src).symbol s)
  /-- Visible symbols that meet no other. -/
  stays : ∀ {x s}, visible? g.dest x = some s → visible? src x = none →
    g'.dest.symbol? x = some ((g.yielding src).symbol s) ∧ g'.definer.get? x = g.definer.get? x
  /-- Visible symbols of the incoming module. -/
  meets : ∀ {x s}, visible? src x = some s → ∃ r,
    Settles ((visible? g.dest x).map (g.yielding src).symbol) ((g.arrival src).symbol s) r ∧
    g'.dest.symbol? x = some r ∧
    (defines ((visible? g.dest x).map (g.yielding src).symbol) ((g.arrival src).symbol s) →
      g'.definer.get? x = some src.identifier) ∧
    (defines ((visible? g.dest x).map (g.yielding src).symbol) ((g.arrival src).symbol s) = false →
      (visible? g.dest x).isSome → g'.definer.get? x = g.definer.get? x)
  /-- There are no others. -/
  cover : ∀ {y r}, g'.dest.symbol? y = some r →
    (∃ x s, g.dest.symbol? x = some s ∧ s.isLocal ∧ (g.yielding src).name x = y ∧
      (g.yielding src).symbol s = r) ∨
    (∃ x s, src.symbol? x = some s ∧ s.isLocal ∧ (g.arrival src).name x = y ∧
      (g.arrival src).symbol s = r) ∨
    (visible? g.dest y).isSome ∨ (visible? src y).isSome

variable {g g' : Merger} {src : IrModule} {triple layout filename : String}

theorem visible?_eq_none_of_isLocalIn (h : isLocalIn m x) : visible? m x = none := by
  cases hv : visible? m x with
  | none => rfl
  | some s =>
    rw [isLocalIn_of_visible? hv] at h
    cases h

theorem visible?_of_isLocalIn_eq_false (hx : m.symbol? x = some s)
    (h : isLocalIn m x = false) : visible? m x = some s := by
  refine visible?_eq_some.2 ⟨hx, ?_⟩
  rw [isLocalIn, hx] at h
  exact h

/-- Where a visible symbol of the incoming module comes, only a visible symbol of its name
stands. -/
theorem symbol?_yielded_of_visible? (hd : g.dest.WellNamed) (hs : src.WellNamed)
    (hx : visible? src x = some s) :
    (g.yielded src triple layout filename).dest.symbol? x =
      (visible? g.dest x).map (g.yielding src).symbol := by
  have hn : x ∈ src.symbolNames := mem_symbolNames_of_symbol? (visible?_eq_some.1 hx).1
  refine Option.ext fun r => ?_
  rw [symbol?_yielded hd, Option.map_eq_some_iff]
  constructor
  · rintro ⟨x', s', hx', hy, rfl⟩
    have he : (g.yielding src).name x' = (g.arrival src).name x := by
      rw [hy, arrival_name_of_visible? hs hx]
    obtain ⟨rfl, hl, -⟩ := shared_visible hs (mem_symbolNames_of_symbol? hx') hn he
    exact ⟨s', visible?_of_isLocalIn_eq_false hx' hl, rfl⟩
  · rintro ⟨s', hx', rfl⟩
    exact ⟨x, s', (visible?_eq_some.1 hx').1, yielding_name_of_visible? hx', rfl⟩

theorem symbol?_yielded_of_local (hd : g.dest.WellNamed) (hs : src.WellNamed)
    (hx : src.symbol? x = some s) (hl : s.isLocal) :
    (g.yielded src triple layout filename).dest.symbol? ((g.arrival src).name x) = none := by
  rw [Option.eq_none_iff_forall_not_mem]
  intro r hr
  obtain ⟨x', s', hx', hy, -⟩ := (symbol?_yielded hd).1 hr
  obtain ⟨-, -, h⟩ :=
    shared_visible hs (mem_symbolNames_of_symbol? hx') (mem_symbolNames_of_symbol? hx) hy
  rw [isLocalIn, hx] at h
  exact absurd (h.symm.trans hl) (by simp)

theorem yielding_name_not_mem (hs : src.WellNamed) (hx : g.dest.symbol? x = some s)
    (hv : isLocalIn g.dest x ∨ visible? src x = none) :
    (g.yielding src).name x ∉ (symbolsInOrder (g.arrived src)).map Symbol.name := by
  intro hm
  obtain ⟨r, hr, hn⟩ := mem_map.1 hm
  have hr := (mem_symbolsInOrder (wellNamed_arrived g hs)).1 hr
  obtain ⟨x', s', hx', hy, -⟩ := (symbol?_arrived hs).1 hr
  obtain ⟨rfl, h, h'⟩ :=
    shared_visible hs (mem_symbolNames_of_symbol? hx) (mem_symbolNames_of_symbol? hx')
    (hn.symm.trans hy.symm)
  rcases hv with hv | hv
  · rw [hv] at h
    cases h
  · rw [visible?_of_isLocalIn_eq_false hx' h'] at hv
    cases hv

theorem definer_yielded (hx : visible? g.dest x = some s) :
    (g.yielded src triple layout filename).definer.get? x = g.definer.get? x := by
  have h := localNames_sound g src
  refine get?_renameKeys ?_ ?_
  · intro hk
    obtain ⟨y, hy⟩ := Table.exists_get? hk
    have hl := isLocalIn_of_yielder_dest (h.only (s := .dest) hy).2.1
    rw [isLocalIn_of_visible? hx] at hl
    cases hl
  · intro hv
    obtain ⟨e, he, rfl⟩ := mem_map.1 hv
    refine (h.only (s := .dest) (Table.get?_eq_some.2 he)).2.2.1 ?_
    exact mem_append_left _ (mem_symbolNames_of_symbol? (visible?_eq_some.1 hx).1)

theorem headed_symbolsInOrder (hm : m.WellNamed) : ∀ s ∈ symbolsInOrder m, s.Headed :=
  fun _ hs => hm.headed ((mem_symbolsInOrder hm).1 hs)

theorem joinSymbols_run (hd : g.dest.WellNamed) (hs : src.WellNamed)
    (h : joinSymbols g src triple layout filename = .ok g') :
    SymbolRun src.identifier (symbolsInOrder (g.arrived src))
      (g.yielded src triple layout filename) g' :=
  mergeSymbols_run (wellNamed_yielded hd) (headed_symbolsInOrder (wellNamed_arrived g hs))
    (nodup_symbolsInOrder (wellNamed_arrived g hs)) h

theorem symbol?_finish (g : Merger) (src : IrModule) (g₂ : Merger) (x : String) :
    (finish g src g₂).dest.symbol? x = g₂.dest.symbol? x := by
  obtain ⟨named, h⟩ :=
    mergeRest_with g₂.dest (g.arrived src) g.dest.nextMetadata g.dest.nextAttributeGroup
  rw [finish, h]
  rfl

theorem wellNamed_finish {g₂ : Merger} (h : g₂.dest.WellNamed) :
    (finish g src g₂).dest.WellNamed := by
  obtain ⟨named, hr⟩ :=
    mergeRest_with g₂.dest (g.arrived src) g.dest.nextMetadata g.dest.nextAttributeGroup
  rw [finish, hr]
  exact ⟨h.function, h.global, h.disjoint⟩

/-- What holds of the symbols of both sides after their passages, and of arrays joined from such,
holds of the symbols after the join. -/
theorem forall_holds_merge {P : String → Symbol → Prop}
    (hold : ∀ {x s y z}, g.dest.Holds x s → (g.yielding src).name x = y → (s.name = x → z = y) →
      P y (s.relabel (g.yielding src).text fun _ => z))
    (hnew : ∀ {x s z}, src.Holds x s → (s.name = x → z = (g.arrival src).name x) →
      P z (s.relabel (g.arrival src).text fun _ => z))
    (hjoin : ∀ {x a b segment}, P x (.global a) → P b.name (.global b) → a.linkage = .appending →
      b.linkage = .appending → joinArrays a.segment b.segment b.name = .ok segment →
      P a.name (.global { a with segment }))
    (h : g.merge src = .ok g') : ∀ y s, g'.dest.Holds y s → P y s := by
  obtain ⟨g1, triple, layout, filename, g2, -, hj, rfl⟩ := merge_ok h
  obtain ⟨named, hr⟩ :=
    mergeRest_with g2.dest (g.arrived src) g.dest.nextMetadata g.dest.nextAttributeGroup
  have hs := forall_holds_mergeSymbols (P := P) (fun s' hs' => ?_) hjoin (fun y s' hs' => ?_) hj
  · rw [finish, hr]
    intro y s hy
    exact hs y s (by cases s <;> exact hy)
  · obtain ⟨y, hs'⟩ := mem_symbolsInOrder_iff.1 hs'
    obtain ⟨x, s, z, hx, rfl, rfl, hz⟩ := holds_arrived hs'
    rw [Symbol.name_relabel]
    exact hnew hx hz
  · obtain ⟨x, s, z, hx, hy, rfl, hz⟩ := holds_renameSymbols hs'
    exact hold (by cases s <;> exact hx) hy hz

theorem arrival_mem (hs : src.WellNamed) (hx : src.symbol? x = some s) :
    (g.arrival src).symbol s ∈ symbolsInOrder (g.arrived src) ∧
      ((g.arrival src).symbol s).name = (g.arrival src).name x := by
  have hn : ((g.arrival src).symbol s).name = (g.arrival src).name x := by
    rw [Passage.symbol, Symbol.name_relabel, hs.name_eq hx]
  refine ⟨?_, hn⟩
  rw [mem_symbolsInOrder (wellNamed_arrived g hs), hn, symbol?_arrived hs]
  exact ⟨x, s, hx, rfl, rfl⟩

theorem merge_step (hd : g.dest.WellNamed) (hs : src.WellNamed) (h : g.merge src = .ok g') :
    MergeStep g src g' := by
  obtain ⟨g1, triple, layout, filename, g2, -, hj, rfl⟩ := merge_ok h
  have hr := joinSymbols_run hd hs hj
  refine ⟨wellNamed_finish hr.wellNamed, ?_, ?_, ?_, ?_, ?_⟩
  · intro x s hx hl
    have hn : (g.yielding src).name x ∉ (symbolsInOrder (g.arrived src)).map Symbol.name :=
      yielding_name_not_mem hs hx (.inl (by rw [isLocalIn, hx]; exact hl))
    rw [symbol?_finish, (hr.frame _ hn).1, symbol?_yielded hd]
    exact ⟨x, s, hx, rfl, rfl⟩
  · intro x s hx hl
    obtain ⟨hm, hn⟩ := arrival_mem hs hx
    obtain ⟨r, hr1, hr2, -⟩ := hr.settled _ hm
    rw [hn] at hr1 hr2
    rw [symbol?_yielded_of_local hd hs hx hl] at hr1
    rw [symbol?_finish, hr2]
    exact congrArg some hr1
  · intro x s hx hv
    have hx' := (visible?_eq_some.1 hx).1
    have hn : (g.yielding src).name x ∉ (symbolsInOrder (g.arrived src)).map Symbol.name :=
      yielding_name_not_mem hs hx' (.inr hv)
    rw [yielding_name_of_visible? hx] at hn
    obtain ⟨h1, h2⟩ := hr.frame _ hn
    refine ⟨?_, h2.trans (definer_yielded hx)⟩
    rw [symbol?_finish, h1, symbol?_yielded hd]
    exact ⟨x, s, hx', yielding_name_of_visible? hx, rfl⟩
  · intro x s hx
    obtain ⟨hm, hn⟩ := arrival_mem hs (visible?_eq_some.1 hx).1
    rw [arrival_name_of_visible? hs hx] at hn
    obtain ⟨r, hr1, hr2, hr3⟩ := hr.settled _ hm
    rw [hn, symbol?_yielded_of_visible? hd hs hx] at hr1 hr3
    rw [hn] at hr2
    refine ⟨r, hr1, by rw [symbol?_finish, hr2], ?_, ?_⟩
    · intro hf
      show g2.definer.get? x = _
      rw [hr3, if_pos hf]
    · intro hf hv
      obtain ⟨s', hv⟩ := Option.isSome_iff_exists.1 hv
      show g2.definer.get? x = _
      rw [hr3, hf, ← definer_yielded hv]
      rfl
  · intro y r hy
    rw [symbol?_finish] at hy
    by_cases hm : y ∈ (symbolsInOrder (g.arrived src)).map Symbol.name
    · obtain ⟨s', hs', rfl⟩ := mem_map.1 hm
      obtain ⟨x, s, hx, hn, he⟩ :=
        (symbol?_arrived hs).1 ((mem_symbolsInOrder (wellNamed_arrived g hs)).1 hs')
      cases hl : s.isLocal with
      | true =>
        obtain ⟨r', hr1, hr2, -⟩ := hr.settled _ hs'
        rw [hr2] at hy
        rw [← hn, symbol?_yielded_of_local hd hs hx hl] at hr1
        refine .inr (.inl ⟨x, s, hx, hl, hn, ?_⟩)
        rw [he, ← Option.some.inj hy]
        exact hr1.symm
      | false =>
        have hv := visible?_eq_some.2 ⟨hx, hl⟩
        rw [← hn, arrival_name_of_visible? hs hv, hv]
        exact .inr (.inr (.inr rfl))
    · rw [(hr.frame _ hm).1, symbol?_yielded hd] at hy
      obtain ⟨x, s, hx, hn, he⟩ := hy
      cases hl : s.isLocal with
      | true => exact .inl ⟨x, s, hx, hl, hn, he⟩
      | false =>
        have hv := visible?_eq_some.2 ⟨hx, hl⟩
        rw [← hn, yielding_name_of_visible? hv, hv]
        exact .inr (.inr (.inl rfl))

end CallAtlas.Link
