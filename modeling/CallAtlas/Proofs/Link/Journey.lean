import CallAtlas.Proofs.Link.Names
import CallAtlas.Proofs.Link.Settle

/-!
# The way of a module into the destination

A join changes texts and names on both sides. `Merger.arrival` is what happens to those of the
incoming module and `Merger.yielding` what happens to those already joined; both are a `Passage`.
`merge_ok` and `merge_error` take a join apart, and `merge_step` says what the symbols of the
destination are after it: local symbols go under names of their own, and visible symbols of one name
meet.
-/

namespace CallAtlas.Link

open Ir IrModule

/-- What becomes of the texts and names of a module. -/
structure Passage where
  text : String → String
  name : String → String
  type : String → String
  offset : Nat

/-- One passage after another. -/
def Passage.andThen (p q : Passage) : Passage :=
  ⟨q.text ∘ p.text, q.name ∘ p.name, q.type ∘ p.type, p.offset + q.offset⟩

/-- The symbol after a passage. -/
def Passage.symbol (p : Passage) (s : Symbol) : Symbol := s.relabel p.text p.name

theorem Passage.symbol_andThen (p q : Passage) (s : Symbol) :
    (p.andThen q).symbol s = q.symbol (p.symbol s) :=
  (Symbol.relabel_relabel q.text q.name s).symm

namespace Merger

/-- The incoming module with its numbers moved. -/
def shifted (g : Merger) (src : IrModule) : IrModule :=
  src.mapText (shiftNumbered g.dest.nextMetadata g.dest.nextAttributeGroup)

/-- The new names of its types. -/
def typeNames (g : Merger) (src : IrModule) : Table String String :=
  (typeRenaming g.dest (g.shifted src)).mapping

/-- The incoming module with its types under their new names. -/
def retyped (g : Merger) (src : IrModule) : IrModule :=
  renameTypesOf (g.shifted src) (g.typeNames src)

/-- The new names of local symbols. -/
def localNames (g : Merger) (src : IrModule) : LocalRenaming :=
  localRenaming g.dest (g.retyped src) (sharedNames g.dest (g.retyped src))

/-- The incoming module as its symbols are joined. -/
def arrived (g : Merger) (src : IrModule) : IrModule :=
  (g.retyped src).renameSymbols (g.localNames src).source

/-- What a join makes of the incoming module. -/
def arrival (g : Merger) (src : IrModule) : Passage where
  text := renameGlobals (g.localNames src).source.get? ∘ renameTypes (g.typeNames src).get? ∘
    shiftNumbered g.dest.nextMetadata g.dest.nextAttributeGroup
  name := newName (g.localNames src).source
  type := newName (g.typeNames src)
  offset := g.dest.nextMetadata

/-- What a join makes of the modules joined before. -/
def yielding (g : Merger) (src : IrModule) : Passage where
  text := renameGlobals (g.localNames src).dest.get?
  name := newName (g.localNames src).dest
  type := id
  offset := 0

/-- The destination as the symbols are joined into it, under given header lines. -/
def yielded (g : Merger) (src : IrModule) (triple layout filename : String) : Merger where
  dest := { g.dest with
    targetTriple := triple
    dataLayout := layout
    sourceFilename := filename
    types := addNew g.dest.types (g.retyped src).types.entries }.renameSymbols (g.localNames
    src).dest
  definer := renameKeys g.definer (g.localNames src).dest
  merged := g.merged

end Merger

variable {g g' : Merger} {src : IrModule}

variable {m : IrModule} {s : Symbol} {x : String}

/-! ## Taking a join apart -/

theorem checkTarget_ok (h : g.checkTarget src = .ok g') :
    ∃ triple layout,
      g' = { g with dest := { g.dest with targetTriple := triple, dataLayout := layout } } ∧
      agree g.dest.targetTriple src.targetTriple = some triple ∧
      agree g.dest.dataLayout src.dataLayout = some layout := by
  unfold Merger.checkTarget at h
  cases ht : agree g.dest.targetTriple src.targetTriple with
  | none => rw [ht] at h; cases h
  | some triple =>
    simp only [ht] at h
    cases hl : agree g.dest.dataLayout src.dataLayout with
    | none => rw [hl] at h; cases h
    | some layout =>
      rw [hl] at h
      exact ⟨triple, layout, (Except.ok.inj h).symm, rfl, rfl⟩

theorem renameTypes_of_isEmpty {mapping : Table String String} (h : mapping.isEmpty) :
    renameTypes mapping.get? = id :=
  funext fun text => renameWith_none typeReader "%" (Table.isEmpty_iff.1 h) text

def rewriteNodes (t : String → String) (metadata : Table Nat MetadataNode) :
    Table Nat MetadataNode :=
  metadata.map fun n => { n with text := t n.text }

/-- What a change of texts makes of a module, apart from its symbols and types. -/
structure Retexted (t : String → String) (m m' : IrModule) : Prop where
  identifier : m'.identifier = m.identifier
  triple : m'.targetTriple = m.targetTriple
  layout : m'.dataLayout = m.dataLayout
  comdats : m'.comdats = m.comdats
  groups : m'.attributeGroups = m.attributeGroups
  nodes : m'.metadata = rewriteNodes t m.metadata

theorem retexted_id (m : IrModule) : Retexted id m m :=
  ⟨rfl, rfl, rfl, rfl, rfl, (Table.map_eq_self fun _ _ => rfl).symm⟩

theorem Retexted.trans {t u : String → String} {m' m'' : IrModule} (h : Retexted t m m')
    (h' : Retexted u m' m'') :
    Retexted (u ∘ t) m m'' where
  identifier := h'.identifier.trans h.identifier
  triple := h'.triple.trans h.triple
  layout := h'.layout.trans h.layout
  comdats := h'.comdats.trans h.comdats
  groups := h'.groups.trans h.groups
  nodes := by
    rw [h'.nodes, h.nodes]
    simp [rewriteNodes, Table.map]

theorem retexted_mapText (t : String → String) (m : IrModule) : Retexted t m (m.mapText t) :=
  ⟨rfl, rfl, rfl, rfl, rfl, rfl⟩

theorem retexted_renameTypesOf (m : IrModule) (mapping : Table String String) :
    Retexted (renameTypes mapping.get?) m (renameTypesOf m mapping) := by
  unfold renameTypesOf
  split_ifs with he
  · rw [renameTypes_of_isEmpty he]
    exact retexted_id m
  · exact ⟨rfl, rfl, rfl, rfl, rfl, rfl⟩

theorem retexted_renameSymbols (m : IrModule) (mapping : Table String String) :
    Retexted (renameGlobals mapping.get?) m (m.renameSymbols mapping) := by
  unfold renameSymbols
  split_ifs with he
  · rw [renameGlobals_of_isEmpty he]
    exact retexted_id m
  · exact ⟨rfl, rfl, rfl, rfl, rfl, rfl⟩

theorem retexted_arrived (g : Merger) (src : IrModule) :
    Retexted (g.arrival src).text src (g.arrived src) :=
  ((retexted_mapText _ src).trans (retexted_renameTypesOf _ _)).trans (retexted_renameSymbols _ _)

/-- The symbols of the incoming module joined into the destination. -/
def joinSymbols (g : Merger) (src : IrModule) (triple layout filename : String) :
    Except Broken Merger :=
  (symbolsInOrder (g.arrived src)).foldlM (Merger.mergeSymbol src.identifier)
    (g.yielded src triple layout filename)

/-- The destination with everything else of the incoming module. -/
def finish (g : Merger) (src : IrModule) (g₂ : Merger) : Merger :=
  { g₂ with
    dest := mergeRest g₂.dest (g.arrived src) g.dest.nextMetadata g.dest.nextAttributeGroup
    merged := g₂.merged + 1 }

/-- The destination under given header lines. -/
def retitled (g : Merger) (triple layout filename : String) : Merger :=
  { g with dest := { g.dest with
      targetTriple := triple, dataLayout := layout, sourceFilename := filename } }

/-- A join behind the check of its header lines. -/
def joinModule (g : Merger) (src : IrModule) : Except Broken Merger := do
  let metadataOffset := g.dest.nextMetadata
  let attributeOffset := g.dest.nextAttributeGroup
  let src := src.mapText (shiftNumbered metadataOffset attributeOffset)
  let (g, src) := g.unifyTypes src
  let (g, src) := g.renameLocals src
  let g ← (symbolsInOrder src).foldlM (Merger.mergeSymbol src.identifier) g
  pure { g with
    dest := mergeRest g.dest src metadataOffset attributeOffset
    merged := g.merged + 1 }

theorem joinModule_retitled (g : Merger) (src : IrModule) (triple layout filename : String) :
    joinModule (retitled g triple layout filename) src =
      (joinSymbols g src triple layout filename).map (finish g src) := by
  have h : joinModule (retitled g triple layout filename) src = (do
      let g2 ← (symbolsInOrder (g.arrived src)).foldlM
        (Merger.mergeSymbol (g.arrived src).identifier) (g.yielded src triple layout filename)
      pure (finish g src g2)) := rfl
  rw [h, (retexted_arrived g src).identifier, ← joinSymbols]
  cases joinSymbols g src triple layout filename <;> rfl

theorem merge_joinModule (g : Merger) (src : IrModule) : g.merge src = (do
    let g ← g.checkTarget src
    joinModule
        (if g.merged = 0 then { g with dest.sourceFilename := src.sourceFilename } else g) src) :=
  rfl

theorem merge_eq {g₁ : Merger} (h : g.checkTarget src = .ok g₁) : ∃ triple layout filename,
      (agree g.dest.targetTriple src.targetTriple = some triple ∧
        agree g.dest.dataLayout src.dataLayout = some layout) ∧
      g.merge src = (joinSymbols g src triple layout filename).map (finish g src) := by
  obtain ⟨triple, layout, rfl, ha⟩ := checkTarget_ok h
  have hb (x : Merger) (k : Merger → Except Broken Merger) : (Except.ok x >>= k) = k x := rfl
  rw [merge_joinModule, h, hb]
  by_cases h0 : g.merged = 0
  · refine ⟨triple, layout, src.sourceFilename, ha, ?_⟩
    rw [← joinModule_retitled, if_pos h0]
    rfl
  · refine ⟨triple, layout, g.dest.sourceFilename, ha, ?_⟩
    rw [← joinModule_retitled, if_neg h0]
    rfl

theorem merge_ok (h : g.merge src = .ok g') : ∃ g1 triple layout filename g2,
      (g.checkTarget src = .ok g1 ∧ agree g.dest.targetTriple src.targetTriple = some triple ∧
        agree g.dest.dataLayout src.dataLayout = some layout) ∧
      joinSymbols g src triple layout filename = .ok g2 ∧ g' = finish g src g2 := by
  obtain ⟨g1, h1, -⟩ := bind_eq_ok h
  obtain ⟨triple, layout, filename, ha, hm⟩ := merge_eq h1
  rw [hm] at h
  obtain ⟨g2, hj, hf⟩ := map_eq_ok h
  exact ⟨g1, triple, layout, filename, g2, ⟨h1, ha⟩, hj, hf.symm⟩

theorem merge_error {b : Broken} (h : g.merge src = .error b) : g.checkTarget src = .error b ∨
      ∃ g1 triple layout filename, g.checkTarget src = .ok g1 ∧
      joinSymbols g src triple layout filename = .error b := by
  cases h1 : g.checkTarget src with
  | error b' =>
    unfold Merger.merge at h
    rw [h1] at h
    exact .inl (congrArg Except.error (Except.error.inj h))
  | ok g1 =>
    obtain ⟨triple, layout, filename, -, hm⟩ := merge_eq h1
    rw [hm] at h
    cases hj : joinSymbols g src triple layout filename with
    | error b' =>
      rw [hj] at h
      obtain rfl := Except.error.inj h
      exact .inr ⟨g1, triple, layout, filename, rfl, hj⟩
    | ok g2 => rw [hj] at h; cases h

/-! ## Names on both sides -/

/-- What renumbering and the new names of types make of the texts of the incoming module. -/
def Merger.retyping (g : Merger) (src : IrModule) : String → String :=
  renameTypes (g.typeNames src).get? ∘ shiftNumbered g.dest.nextMetadata g.dest.nextAttributeGroup

theorem keepsLead_retyping (g : Merger) (src : IrModule) : KeepsLead (g.retyping src) :=
  (keepsLead_renameTypes _).comp (keepsLead_shiftNumbered _ _)

theorem keepsLead_arrival (g : Merger) (src : IrModule) : KeepsLead (g.arrival src).text :=
  (keepsLead_renameGlobals _).comp (keepsLead_retyping g src)

theorem keepsLead_yielding (g : Merger) (src : IrModule) : KeepsLead (g.yielding src).text :=
  keepsLead_renameGlobals _

theorem symbol?_renameTypesOf (src : IrModule) (mapping : Table String String) (x : String) :
    (renameTypesOf src mapping).symbol? x =
      (src.symbol? x).map (Symbol.relabel (renameTypes mapping.get?) id) := by
  unfold renameTypesOf
  split_ifs with h
  · have hi : Symbol.relabel id id = id := funext Symbol.relabel_id
    rw [renameTypes_of_isEmpty h, hi, Option.map_id, id]
  · exact symbol?_mapText _

theorem symbol?_retyped (g : Merger) (src : IrModule) (x : String) :
    (g.retyped src).symbol? x = (src.symbol? x).map (Symbol.relabel (g.retyping src) id) := by
  have hr : Symbol.relabel (renameTypes (g.typeNames src).get?) id ∘
      Symbol.relabel (shiftNumbered g.dest.nextMetadata g.dest.nextAttributeGroup) id =
      Symbol.relabel (g.retyping src) id := funext fun s => Symbol.relabel_relabel _ _ s
  unfold Merger.retyped Merger.shifted
  rw [symbol?_renameTypesOf, symbol?_mapText, Option.map_map, hr]

theorem wellNamed_renameTypesOf (hm : m.WellNamed) (mapping : Table String String) :
    (renameTypesOf m mapping).WellNamed := by
  unfold renameTypesOf
  split_ifs
  · exact hm
  · have h := hm.mapText (keepsLead_renameTypes mapping.get?)
    exact ⟨h.function, h.global, h.disjoint⟩

theorem wellNamed_retyped (g : Merger) (hs : src.WellNamed) : (g.retyped src).WellNamed :=
  wellNamed_renameTypesOf (hs.mapText (keepsLead_shiftNumbered _ _)) _

theorem mem_symbolNames_retyped (g : Merger) (src : IrModule) :
    x ∈ (g.retyped src).symbolNames ↔ x ∈ src.symbolNames := by
  rw [mem_symbolNames, mem_symbolNames, symbol?_retyped, Option.isSome_map]

theorem isLocalIn_retyped (g : Merger) (hs : src.WellNamed) (x : String) :
    isLocalIn (g.retyped src) x = isLocalIn src x := by
  unfold isLocalIn
  rw [symbol?_retyped]
  cases h : src.symbol? x with
  | none => rfl
  | some s => exact Symbol.isLocal_relabel (keepsLead_retyping g src) (hs.headed h)

theorem nodup_sharedNames (dest src : IrModule) : (sharedNames dest src).Nodup :=
  (nodup_symbolNames src).filter _

theorem localNames_sound (g : Merger) (src : IrModule) :
    LocalRenaming.Sound g.dest (g.retyped src) (g.dest.symbolNames ++ (g.retyped src).symbolNames)
      (sharedNames g.dest (g.retyped src)) (g.localNames src) :=
  localRenaming_sound _ _ (nodup_sharedNames _ _)

/-- Two symbols come to one name only if they had one name before, and then both are on one side or
neither is renamed. -/
theorem LocalRenaming.Sound.separates {dest src : IrModule} {known decided : List String}
    {r : LocalRenaming}
    (h : r.Sound dest src known decided) (s s' : Side) {a b : String} (ha : a ∈ known)
    (hb : b ∈ known) (he : newName (r.side s) a = newName (r.side s') b) :
    a = b ∧ (s = s' ∨ (r.side s).get? a = none ∧ (r.side s').get? b = none) := by
  have hnew {s : Side} {x y : String} (hx : (r.side s).get? x = some y) := (h.only hx).2.2.1
  rcases newName_eq_newName hnew hnew ha hb he with ⟨hab, hn⟩ | ⟨z, hz, hz'⟩
  · exact ⟨hab, .inr hn⟩
  · obtain ⟨hs, hab⟩ := h.inj hz hz'
    exact ⟨hab, .inl hs⟩

theorem separates_dest (g : Merger) (src : IrModule) :
    Separates (g.localNames src).dest g.dest.symbolNames :=
  fun _ ha _ hb he => ((localNames_sound g src).separates .dest .dest
    (List.mem_append_left _ ha) (List.mem_append_left _ hb) he).1

theorem separates_source (g : Merger) (src : IrModule) :
    Separates (g.localNames src).source (g.retyped src).symbolNames :=
  fun _ ha _ hb he => ((localNames_sound g src).separates .source .source
    (List.mem_append_right _ ha) (List.mem_append_right _ hb) he).1

theorem arrival_name (g : Merger) (src : IrModule) :
    (g.arrival src).name = newName ((g.localNames src).side .source) :=
  rfl

theorem yielding_name (g : Merger) (src : IrModule) :
    (g.yielding src).name = newName ((g.localNames src).side .dest) :=
  rfl

/-- A symbol of the destination and one of the incoming module come to one name only if they share
it and are both visible. -/
theorem shared_visible (hs : src.WellNamed) {x' : String} (hx : x ∈ g.dest.symbolNames)
    (hx' : x' ∈ src.symbolNames) (he : (g.yielding src).name x = (g.arrival src).name x') :
    x = x' ∧ isLocalIn g.dest x = false ∧ isLocalIn src x' = false := by
  have h := localNames_sound g src
  rw [← mem_symbolNames_retyped g src] at hx'
  rw [yielding_name, arrival_name] at he
  obtain ⟨rfl, hn⟩ :=
    h.separates .dest .source (List.mem_append_left _ hx) (List.mem_append_right _ hx') he
  obtain ⟨hd, hn⟩ := hn.resolve_left (by simp)
  have hm : x ∈ sharedNames g.dest (g.retyped src) :=
    List.mem_filter.2 ⟨hx', mem_symbolNames.1 hx⟩
  have hsrc : isLocalIn src x = false := by
    by_contra hl
    rw [← isLocalIn_retyped g hs, Bool.not_eq_false] at hl
    have := h.total x hm .source (by rw [yielder, if_pos hl])
    rw [hn] at this
    cases this
  refine ⟨rfl, ?_, hsrc⟩
  by_contra hl
  rw [Bool.not_eq_false] at hl
  rw [← isLocalIn_retyped g hs] at hsrc
  have := h.total x hm .dest (by rw [yielder, if_neg (by rw [hsrc]; simp), if_pos hl])
  rw [hd] at this
  cases this

/-! ## The symbols of both sides -/

/-- The symbol of a name if other modules see it. -/
def visible? (m : IrModule) (x : String) : Option Symbol := (m.symbol? x).filter (!·.isLocal)

theorem visible?_eq_some : visible? m x = some s ↔ m.symbol? x = some s ∧ s.isLocal = false := by
  unfold visible?
  simp

theorem isLocalIn_of_visible? (h : visible? m x = some s) : isLocalIn m x = false := by
  obtain ⟨h, hl⟩ := visible?_eq_some.1 h
  rw [isLocalIn, h]
  exact hl

theorem yielding_name_of_visible? (h : visible? g.dest x = some s) :
    (g.yielding src).name x = x := by
  rw [yielding_name, newName]
  cases hg : ((g.localNames src).side .dest).get? x with
  | none => rfl
  | some y =>
    have hl := isLocalIn_of_yielder_dest ((localNames_sound g src).only hg).2.1
    rw [isLocalIn_of_visible? h] at hl
    cases hl

theorem arrival_name_of_visible? (hs : src.WellNamed) (h : visible? src x = some s) :
    (g.arrival src).name x = x := by
  rw [arrival_name, newName]
  cases hg : ((g.localNames src).side .source).get? x with
  | none => rfl
  | some y =>
    have hl := isLocalIn_of_yielder_source ((localNames_sound g src).only hg).2.1
    rw [isLocalIn_retyped g hs, isLocalIn_of_visible? h] at hl
    cases hl

theorem arrival_symbol (g : Merger) (src : IrModule) (s : Symbol) :
    (g.arrival src).symbol s = (s.relabel (g.retyping src) id).relabel
      (renameGlobals (g.localNames src).source.get?) (newName (g.localNames src).source) := by
  rw [Symbol.relabel_relabel]
  rfl

theorem symbol?_arrived (hs : src.WellNamed) {y : String} {s' : Symbol} :
    (g.arrived src).symbol? y = some s' ↔
      ∃ x s, src.symbol? x = some s ∧ (g.arrival src).name x = y ∧
      (g.arrival src).symbol s = s' := by
  unfold Merger.arrived
  rw [(wellNamed_retyped g hs).symbol?_renameSymbols (separates_source g src)]
  constructor
  · rintro ⟨x, u, hu, hy, he⟩
    rw [symbol?_retyped] at hu
    obtain ⟨s, hx, rfl⟩ := Option.map_eq_some_iff.1 hu
    rw [← arrival_symbol] at he
    exact ⟨x, s, hx, hy, he⟩
  · rintro ⟨x, s, hx, hy, he⟩
    rw [arrival_symbol] at he
    refine ⟨x, s.relabel (g.retyping src) id, ?_, hy, he⟩
    rw [symbol?_retyped, hx]
    rfl

/-- The symbols of the incoming module as they are joined are its symbols after their passage. -/
theorem holds_arrived {y : String} (h : (g.arrived src).Holds y s) : ∃ x u z, src.Holds x u ∧
    (g.arrival src).name x = y ∧ u.relabel (g.arrival src).text (fun _ => z) = s ∧
    (u.name = x → z = y) := by
  obtain ⟨x, v, z, hv, hy, rfl, hz⟩ := holds_renameSymbols h
  obtain ⟨w, hw, rfl⟩ : ∃ w, (g.shifted src).Holds x w ∧
      w.relabel (renameTypes (g.typeNames src).get?) id = v := by
    unfold Merger.retyped renameTypesOf at hv
    split_ifs at hv with he
    · exact ⟨v, hv, by rw [renameTypes_of_isEmpty he, v.relabel_id]⟩
    · exact holds_mapText hv
  obtain ⟨u, hu, rfl⟩ := holds_mapText hw
  refine ⟨x, u, z, hu, hy, ?_, fun hn => hz ?_⟩
  · rw [Symbol.relabel_relabel, Symbol.relabel_relabel]
    rfl
  · rw [Symbol.name_relabel, Symbol.name_relabel]
    exact hn

theorem wellNamed_arrived (g : Merger) (hs : src.WellNamed) : (g.arrived src).WellNamed :=
  (wellNamed_retyped g hs).renameSymbols (separates_source g src)

section yielded

variable {triple layout filename : String}

theorem wellNamed_retitled (hd : g.dest.WellNamed) : { g.dest with
    targetTriple := triple
    dataLayout := layout
    sourceFilename := filename
    types := addNew g.dest.types (g.retyped src).types.entries : IrModule }.WellNamed :=
  ⟨hd.function, hd.global, hd.disjoint⟩

theorem wellNamed_yielded (hd : g.dest.WellNamed) :
    (g.yielded src triple layout filename).dest.WellNamed :=
  (wellNamed_retitled hd).renameSymbols (separates_dest g src)

theorem symbol?_yielded (hd : g.dest.WellNamed) {y : String} {s' : Symbol} :
    (g.yielded src triple layout filename).dest.symbol? y = some s' ↔
      ∃ x s, g.dest.symbol? x = some s ∧ (g.yielding src).name x = y ∧
      (g.yielding src).symbol s = s' :=
  (wellNamed_retitled hd).symbol?_renameSymbols (separates_dest g src)

end yielded

end CallAtlas.Link
