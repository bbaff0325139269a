import CallAtlas.Proofs.Link.Run
import CallAtlas.Proofs.Link.Splitting

/-!
# References along the way of a module

A passage is `Faithful` if a tidy text stays tidy and refers, after the passage, to the new names of
what it referred to before. The passages of a join are faithful if the names of the incoming module
are legible, `faithful_arrival` and `faithful_yielding`, and so are those of a whole run,
`trackAll_faithful`. The references of a symbol are then carried along name by name,
`references_symbol`.
-/

namespace CallAtlas.Link

open Ir IrModule

variable {x y : String}

/-- The passage carries references along. -/
structure Passage.Faithful (p : Passage) : Prop where
  tidy : ∀ {text : String}, Tidy globalReader text.toList → Tidy globalReader (p.text text).toList
  refNames : ∀ {text : String}, Tidy globalReader text.toList →
    refNames globalReader (p.text text) = (refNames globalReader text).map p.name
  settled : ∀ {text : String}, Tidy globalReader text.toList → settled text.toList →
    settled (p.text text).toList

theorem Passage.Faithful.andThen {p q : Passage} (hp : p.Faithful) (hq : q.Faithful) :
    (p.andThen q).Faithful := by
  refine ⟨fun ht => hq.tidy (hp.tidy ht), fun ht => ?_,
    fun ht hf => hq.settled (hp.tidy ht) (hp.settled ht hf)⟩
  show Ir.refNames globalReader (q.text (p.text _)) = List.map (q.name ∘ p.name) _
  rw [hq.refNames (hp.tidy ht), hp.refNames ht, List.map_map]

/-! ## The passages of a join -/

theorem suffixed_numbered (x : String) (n : Nat) : Suffixed x.toList (numbered x n).toList := by
  obtain ⟨ds, d, hd⟩ : ∃ ds d, Text.natDigits (n + 1) = ds ++ [d] :=
    ⟨_, _, (List.dropLast_append_getLast (Nat.toDigits_ne_nil)).symm⟩
  refine ⟨d, ds, ?_, fun c hc => isAsciiDigit_of_mem_natDigits (hd ▸ hc)⟩
  simp only [numbered, hd]
  simp

theorem globalName?_of_bareName? {s : List Char} {v : List Char × List Char}
    (h : bareName? s = some v) :
    globalName? s = some v := by
  rw [globalName?, h]
  rfl

/-- The names of all symbols survive their written form. -/
def LegibleNames (m : IrModule) : Prop := ∀ x ∈ m.symbolNames, Legible x.toList

variable {g : Merger} {src : IrModule}

/-- A join gives new names to symbols that the incoming module has as well, and they are their own
names with numbers. -/
theorem localNames_numbered (side : Side) (h : ((g.localNames src).side side).get? x = some y) :
    x ∈ src.symbolNames ∧ ∃ n, y = numbered x n := by
  obtain ⟨hx, -, -, n, rfl⟩ := (localNames_sound g src).only h
  exact ⟨(mem_symbolNames_retyped g src).1 (List.mem_filter.1 hx).1, n, rfl⟩

theorem typeNames_numbered (h : (g.typeNames src).get? x = some y) :
    x ∈ src.types.keys ∧ ∃ n, y = numbered x n := by
  have hsound := typeRenaming_sound g.dest (g.shifted src)
  obtain ⟨-, n, rfl⟩ := hsound.only h
  have hx := (hsound.shared h).2
  rw [Merger.shifted, mapText, Table.keys_map] at hx
  exact ⟨hx, n, rfl⟩

theorem localNames_reads (side : Side) (hl : LegibleNames src)
    (h : ((g.localNames src).side side).get? x = some y) :
    Writable y.toList ∧ ReadsBack globalReader '@' y.toList := by
  obtain ⟨hx, n, rfl⟩ := localNames_numbered side h
  have hs := suffixed_numbered x n
  exact ⟨writable_suffixed hs,
    hs.readsBack rfl bareForm_globalName? globalName?_of_bareName? (hl x hx)⟩

theorem localNames_writable (side : Side) (h : ((g.localNames src).side side).get? x = some y) :
    Writable y.toList := by
  obtain ⟨-, n, rfl⟩ := localNames_numbered side h
  exact writable_suffixed (suffixed_numbered x n)

theorem typeNames_writable (h : (g.typeNames src).get? x = some y) : Writable y.toList := by
  obtain ⟨-, n, rfl⟩ := typeNames_numbered h
  exact writable_suffixed (suffixed_numbered x n)

theorem references_edit {p : Char → Bool} (hp : p '@' = false) {text text' : String}
    (h : Edit p text.toList text'.toList) (ht : Tidy globalReader text.toList) :
    Tidy globalReader text'.toList ∧ refNames globalReader text' = refNames globalReader text := by
  obtain ⟨h1, h2⟩ := h.references sigiled_globalReader.sighted (sigiled_globalReader.spared hp)
  exact ⟨h2.2 ht, by rw [refNames, h1]; rfl⟩

theorem faithful_rename {mapping : Table String String}
    (hw : ∀ {x y}, mapping.get? x = some y → Writable y.toList ∧
      ReadsBack globalReader '@' y.toList) (type : String → String)
    (offset : Nat) :
    Passage.Faithful ⟨renameGlobals mapping.get?, newName mapping, type, offset⟩ := by
  refine ⟨fun ht => ?_, fun ht => ?_, fun ht hf => ?_⟩
  · exact (renameWith_refNames sigiled_globalReader rfl hw ht).2
  · exact (renameWith_refNames sigiled_globalReader rfl hw ht).1
  · exact settled_edit (renameGlobals_edit (fun h => (hw h).1) ht.terminated) hf

theorem faithful_yielding (g : Merger) (hl : LegibleNames src) : (g.yielding src).Faithful :=
  faithful_rename (fun h => localNames_reads .dest hl h) id 0

theorem faithful_arrival (g : Merger) (hl : LegibleNames src) : (g.arrival src).Faithful := by
  have hshift {text : String} (ht : Tidy globalReader text.toList) :=
    shiftNumbered_edit g.dest.nextMetadata g.dest.nextAttributeGroup ht.terminated
  have htypes {text : String} (ht : Tidy globalReader text.toList) :
      Edit (· = '%') text.toList (renameTypes (g.typeNames src).get? text).toList :=
    renameTypes_edit typeNames_writable ht.terminated
  have hlocal : Passage.Faithful ⟨renameGlobals (g.localNames src).source.get?,
      newName (g.localNames src).source, newName (g.typeNames src), g.dest.nextMetadata⟩ :=
    faithful_rename (fun h => localNames_reads .source hl h) _ _
  have hpre {text : String} (ht : Tidy globalReader text.toList) :
      Tidy globalReader (g.retyping src text).toList ∧
        refNames globalReader (g.retyping src text) = refNames globalReader text ∧
        (settled text.toList → settled (g.retyping src text).toList) := by
    obtain ⟨h1, h2⟩ := references_edit (by decide) (hshift ht) ht
    obtain ⟨h3, h4⟩ := references_edit (by decide) (htypes h1) h1
    exact ⟨h3, h4.trans h2, fun hf => settled_edit (htypes h1) (settled_edit (hshift ht) hf)⟩
  refine ⟨fun ht => hlocal.tidy (hpre ht).1, fun ht => ?_,
    fun ht hf => hlocal.settled (hpre ht).1 ((hpre ht).2.2 hf)⟩
  exact (hlocal.refNames (hpre ht).1).trans (congrArg _ (hpre ht).2.1)

theorem trackAll_faithful {identifier : String} {modules : List IrModule} {js : List Joined}
    (hl : ∀ m ∈ modules, LegibleNames m) (h : trackAll identifier modules = .ok (g, js)) :
    ∀ j ∈ js, j.passage.Faithful := by
  refine trackAll_passages ?_ ?_ hl h
  · exact fun g src p hs hp => hp.andThen (faithful_yielding g hs)
  · exact fun g src hs => faithful_arrival g hs

end CallAtlas.Link
