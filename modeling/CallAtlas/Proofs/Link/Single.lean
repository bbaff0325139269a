import CallAtlas.Proofs.Ir.Parsed
import CallAtlas.Proofs.Link.Step

/-!
# A module joined alone

Into a fresh destination a module comes as it is: no number is moved, no type and no symbol renamed,
and every symbol is put under its own name. `merge_alone` says what the destination is then: the
module, with later copies of a line left out, and with later nodes of one text left out of the two
lists that repeat no text. So a module in which no line stands twice is printed as it was exactly if
no text stands twice in these lists: `join_alone`.
-/

namespace CallAtlas.Link

open Ir IrModule Text List Table

variable {m : IrModule}

/-! ## Tables -/

theorem addNew_eq_insertMany {ν : Type} {t : Table String ν} {es : List (String × ν)}
    (hd : ((t.entries ++ es).map Prod.fst).Nodup) : addNew t es = t.insertMany es := by
  unfold addNew insertMany
  induction es generalizing t with
  | nil => rfl
  | cons e es ih =>
    have hk : e.1 ∉ t.entries.map Prod.fst := by
      rw [map_append] at hd
      exact fun hm => (nodup_append.1 hd).2.2 e.1 hm e.1 mem_cons_self rfl
    have hnew : t.insertNew e.1 e.2 = t.insert e.1 e.2 := by
      rw [insertNew, if_neg]
      exact fun hc => hk (contains_eq_true.1 hc)
    have he : (t.insert e.1 e.2).entries = t.entries ++ [e] := write_new hk e.2
    rw [foldl_cons, hnew]
    refine ih ?_
    rw [he, append_assoc]
    exact hd

theorem addNew_empty {ν : Type} (t : Table String ν) : addNew Table.empty t.entries = t := by
  rw [addNew_eq_insertMany t.distinct]
  exact ofList_entries t

theorem mapText_id (m : IrModule) : m.mapText id = m := by
  have hf : m.functions.map (·.mapText id) = m.functions :=
    map_eq_self fun e _ => Symbol.function.inj (Symbol.relabel_id (.function e.2))
  have hg : m.globals.map (·.mapText id) = m.globals := map_eq_self fun _ _ => rfl
  have hn : m.metadata.map (fun n => { n with text := id n.text }) = m.metadata :=
    map_eq_self fun _ _ => rfl
  have ht : m.types.map id = m.types := map_eq_self fun _ _ => rfl
  unfold mapText
  rw [hf, hg, hn, ht]

/-! ## Into a fresh destination -/

section fresh

variable (name : String) (m)

theorem shifted_empty : (Merger.empty name).shifted m = m := by
  have hs : shiftNumbered ((Merger.empty name).dest.nextMetadata : Nat)
      ((Merger.empty name).dest.nextAttributeGroup : Nat) = id :=
        funext fun text => if_pos ⟨rfl, rfl⟩
  rw [Merger.shifted, hs, mapText_id]

theorem typeNames_empty : (Merger.empty name).typeNames m = Table.empty := by
  rw [Merger.typeNames, shifted_empty, typeRenaming]
  generalize hr : (⟨(Merger.empty name).dest.types.keys ++ m.types.keys, empty⟩ : Renaming) = r
  have hm : r.mapping = empty := by rw [← hr]
  induction m.types.entries with
  | nil => exact hm
  | cons e es ih => exact ih

theorem retyped_empty : (Merger.empty name).retyped m = m := by
  rw [Merger.retyped, typeNames_empty, shifted_empty]
  rfl

theorem localNames_empty : (Merger.empty name).localNames m =
    ⟨(Merger.empty name).dest.symbolNames ++ m.symbolNames, Table.empty, Table.empty⟩ := by
  have hs : sharedNames (Merger.empty name).dest m = [] := filter_eq_nil_iff.2 fun x _ => by
    have hx : (Merger.empty name).dest.symbol? x = none := rfl
    rw [hx]
    simp
  rw [Merger.localNames, retyped_empty, hs]
  rfl

theorem arrived_empty : (Merger.empty name).arrived m = m := by
  rw [Merger.arrived, localNames_empty, retyped_empty]
  rfl

theorem yielded_empty (triple layout filename : String) :
    (Merger.empty name).yielded m triple layout filename =
      ⟨{ identifier := name, targetTriple := triple, dataLayout := layout,
         sourceFilename := filename, types := m.types }, Table.empty, 0⟩ := by
  rw [Merger.yielded, localNames_empty, retyped_empty]
  show (⟨_, _, _⟩ : Merger) = _
  have ht : addNew (Merger.empty name).dest.types m.types.entries = m.types := addNew_empty m.types
  rw [ht]
  rfl

theorem checkTarget_empty :
    (Merger.empty name).checkTarget m =
      .ok (retitled (.empty name) m.targetTriple m.dataLayout "") := by
  have ha (v : String) : agree "" v = some v := by
    unfold agree
    by_cases h : v.isEmpty
    · rw [if_pos h, String.isEmpty_iff.1 h]
    · rw [if_neg h]
      rfl
  have ht : (Merger.empty name).dest.targetTriple = "" := rfl
  have hl (triple : String) :
      ({ Merger.empty name with dest.targetTriple := triple } : Merger).dest.dataLayout = "" :=
    rfl
  unfold Merger.checkTarget
  rw [ht, ha]
  dsimp only
  rw [hl, ha]
  rfl

theorem merge_empty : (Merger.empty name).merge m =
    (joinSymbols (.empty name) m m.targetTriple m.dataLayout m.sourceFilename).map
      (finish (.empty name) m) := by
  rw [← joinModule_retitled, merge_joinModule, checkTarget_empty]
  rfl

end fresh

/-! ## Symbols -/

theorem joinFresh {origin : String} {syms : List Symbol} {g : Merger}
    (hn : ∀ s ∈ syms, g.dest.symbol? s.name = none) (hd : (syms.map Symbol.name).Nodup) :
    ∃ g', syms.foldlM (Merger.mergeSymbol origin) g = .ok g' ∧
    g'.dest = syms.foldl putSymbol g.dest := by
  induction syms generalizing g with
  | nil => exact ⟨g, rfl, rfl⟩
  | cons s syms ih =>
    obtain ⟨hs, hn⟩ := forall_mem_cons.1 hn
    obtain ⟨hne, hd⟩ := nodup_cons.1 hd
    have hplace : g.mergeSymbol origin s = .ok (g.place origin s) := by rw [mergeSymbol_eq, hs]; rfl
    have hdest : (g.place origin s).dest = g.dest.putSymbol s := by rw [dest_place, hs]
    obtain ⟨g', hg', hput⟩ := ih (fun s' hs' => by
      rw [hdest, symbol?_putSymbol (fits_of_absent hs), if_neg]
      · exact hn s' hs'
      · exact fun he => hne (he ▸ mem_map_of_mem hs')) hd
    refine ⟨g', ?_, by rw [hput, hdest]; rfl⟩
    rw [foldlM_cons, hplace]
    exact hg'

theorem foldl_put_globals (gs : List Global) (m : IrModule) :
    (gs.map Symbol.global).foldl putSymbol m =
      { m with globals := m.globals.insertMany (gs.map fun g => (g.name, g)) } := by
  induction gs generalizing m with
  | nil => rfl
  | cons g gs ih =>
    rw [map_cons, foldl_cons, ih]
    rfl

theorem foldl_put_functions (fs : List Function) (m : IrModule) :
    (fs.map Symbol.function).foldl putSymbol m =
      { m with functions := m.functions.insertMany (fs.map fun f => (f.name, f)) } := by
  induction fs generalizing m with
  | nil => rfl
  | cons f fs ih =>
    rw [map_cons, foldl_cons, ih]
    rfl

theorem insertMany_values {ν : Type} {t : Table String ν} {name : ν → String}
    (h : ∀ e ∈ t.entries, name e.2 = e.1) :
    Table.empty.insertMany (t.values.map fun v => (name v, v)) = t := by
  have he : t.values.map (fun v => (name v, v)) = t.entries := by
    rw [values, map_map]
    conv_rhs => rw [← map_id t.entries]
    exact map_congr_left fun e he => Prod.ext (h e he) rfl
  rw [he]
  exact ofList_entries t

theorem foldl_put_symbols (hm : m.WellNamed) {dest : IrModule} (hg : dest.globals = Table.empty)
    (hf : dest.functions = Table.empty) :
    (symbolsInOrder m).foldl putSymbol dest =
      { dest with globals := m.globals, functions := m.functions } := by
  rw [symbolsInOrder, foldl_append, foldl_put_globals, foldl_put_functions, hg, hf,
    insertMany_values hm.global, insertMany_values fun e he => (hm.function e he).1]

/-! ## The rest -/

/-- The nodes whose text is not among those seen. -/
def newTexts (text : Nat → Option String) (seen : List String) : List Nat → List Nat
  | [] => []
  | i :: r =>
    match text i with
    | some t => if seen.contains t then newTexts text seen r else i :: newTexts text (t :: seen) r
    | none => i :: newTexts text seen r

def textOf (metadata : Table Nat MetadataNode) (i : Nat) : Option String :=
  (metadata.get? i).map MetadataNode.text

theorem addByText_eq (metadata : Table Nat MetadataNode) (present added : List Nat) :
    addByText metadata present added =
      present ++ newTexts (textOf metadata) (present.filterMap (textOf metadata)) added := by
  unfold addByText
  dsimp only
  show (added.foldl _ (present, present.filterMap (textOf metadata))).1 = _
  generalize present.filterMap (textOf metadata) = seen
  induction added generalizing present seen with
  | nil => simp [newTexts]
  | cons i r ih =>
    have ht : (metadata.get? i).map MetadataNode.text = textOf metadata i := rfl
    rw [foldl_cons, newTexts, ht]
    cases textOf metadata i with
    | none => rw [ih, append_assoc]; rfl
    | some t =>
      dsimp only
      split_ifs
      · exact ih present seen
      · rw [ih, append_assoc]
        rfl

theorem length_newTexts_le (text : Nat → Option String) (seen : List String) (ids : List Nat) :
    (newTexts text seen ids).length ≤ ids.length := by
  induction ids generalizing seen with
  | nil => exact le_rfl
  | cons i r ih =>
    rw [newTexts]
    split
    · split_ifs
      · exact Nat.le_succ_of_le (ih seen)
      · exact Nat.succ_le_succ (ih _)
    · exact Nat.succ_le_succ (ih seen)

/-- All nodes are new exactly if no text is seen before and none stands twice. -/
theorem newTexts_eq_self {text : Nat → Option String} {seen : List String} {ids : List Nat} :
    newTexts text seen ids = ids ↔ (∀ t ∈ ids.filterMap text, t ∉ seen) ∧
    (ids.filterMap text).Nodup := by
  induction ids generalizing seen with
  | nil => simp [newTexts]
  | cons i r ih =>
    rw [newTexts]
    cases ht : text i with
    | none => rw [filterMap_cons_none ht, cons_inj_right, ih]
    | some t =>
      rw [filterMap_cons_some ht, forall_mem_cons, nodup_cons]
      dsimp only
      split_ifs with hs
      · -- the node is left out, and the list has become shorter
        refine iff_of_false ?_ fun h => h.1.1 (contains_iff_mem.1 hs)
        intro he
        have hle := length_newTexts_le text seen r
        rw [he, length_cons] at hle
        omega
      · rw [cons_inj_right, ih]
        simp only [contains_iff_mem, mem_cons, not_or] at hs ⊢
        constructor
        · rintro ⟨h1, h2⟩
          exact ⟨⟨hs, fun t' ht' => (h1 t' ht').2⟩, fun htr => (h1 t htr).1 rfl, h2⟩
        · rintro ⟨⟨-, h1⟩, h2, h3⟩
          exact ⟨fun t' ht' => ⟨fun he => h2 (he ▸ ht'), h1 t' ht'⟩, h3⟩

/-- What a fresh destination takes over of a named list. -/
def namedAlone (metadata : Table Nat MetadataNode) (e : String × List Nat) : List Nat :=
  if textSets.contains e.1 then newTexts (textOf metadata) [] e.2 else e.2

theorem mergeNamed_new {dest : IrModule} {named : List (String × List Nat)}
    (hd : ((dest.namedMetadata.entries ++ named).map Prod.fst).Nodup) :
    mergeNamed dest named 0 = { dest with
      namedMetadata :=
      dest.namedMetadata.insertMany (named.map fun e => (e.1, namedAlone dest.metadata e)) } := by
  unfold mergeNamed
  induction named generalizing dest with
  | nil => rfl
  | cons e named ih =>
    have hk : e.1 ∉ dest.namedMetadata.entries.map Prod.fst := by
      rw [map_append] at hd
      exact fun hm => (nodup_append.1 hd).2.2 e.1 hm e.1 mem_cons_self rfl
    have hnone : dest.namedMetadata.get? e.1 = none := get?_eq_none.2 hk
    have hids : (if textSets.contains e.1 then
        addByText dest.metadata ((dest.namedMetadata.get? e.1).getD []) (e.2.map (· + 0))
        else (dest.namedMetadata.get? e.1).getD [] ++ e.2.map (· + 0)) =
        namedAlone dest.metadata e := by
      rw [hnone, addByText_eq]
      have hzero : e.2.map (· + 0) = e.2 := map_id e.2
      rw [hzero]
      rfl
    have he (v : List Nat) : (dest.namedMetadata.insert e.1 v).entries =
        dest.namedMetadata.entries ++ [(e.1, v)] :=
      write_new hk v
    rw [foldl_cons]
    dsimp only
    rw [hids, ih]
    · rfl
    · show (((dest.namedMetadata.insert e.1 _).entries ++ named).map Prod.fst).Nodup
      rw [he]
      simpa using hd

theorem addLines_of_nodup {present added : List String} (h : (present ++ added).Nodup) :
    addLines present added = present ++ added := by
  unfold addLines
  induction added generalizing present with
  | nil => simp
  | cons l added ih =>
    have hl : present.contains l = false := by
      rw [← Bool.not_eq_true, contains_iff_mem]
      exact fun hm => (nodup_append.1 h).2.2 l hm l mem_cons_self rfl
    rw [foldl_cons, hl]
    show added.foldl _ (present ++ [l]) = _
    rw [ih] <;> rw [append_assoc]
    · rfl
    · exact h

/-! ## The whole module -/

def alone (m : IrModule) (name : String) : IrModule :=
  { m with
    identifier := name
    extraLines := addLines [] m.extraLines
    namedMetadata :=
    Table.ofList (m.namedMetadata.entries.map fun e => (e.1, namedAlone m.metadata e)) }

def headAlone (m : IrModule) (name : String) : IrModule where
  identifier := name
  sourceFilename := m.sourceFilename
  targetTriple := m.targetTriple
  dataLayout := m.dataLayout
  types := m.types
  globals := m.globals
  functions := m.functions

theorem mergeRest_alone (hn : ∀ e ∈ m.metadata.entries, e.2.id = e.1) (name : String) :
    mergeRest (headAlone m name) m 0 0 = alone m name := by
  have hattributes : m.attributeGroups.entries.map (fun e => (e.1 + 0, e.2)) =
      m.attributeGroups.entries :=
    map_id _
  have hnodes : m.metadata.entries.map (fun e => (e.1 + 0, (⟨e.1 + 0, e.2.text⟩ : MetadataNode))) =
      m.metadata.entries := by
    conv_rhs => rw [← map_id m.metadata.entries]
    refine map_congr_left fun e he => ?_
    exact Prod.ext rfl (congrArg (fun i => (⟨i, e.2.text⟩ : MetadataNode)) (hn e he).symm)
  have hc : addNew (headAlone m name).comdats m.comdats.entries = m.comdats :=
    addNew_empty m.comdats
  have ha : (headAlone m name).attributeGroups.insertMany m.attributeGroups.entries =
      m.attributeGroups :=
    ofList_entries m.attributeGroups
  have hm : (headAlone m name).metadata.insertMany m.metadata.entries = m.metadata :=
    ofList_entries m.metadata
  have hnamed := @mergeNamed_new { headAlone m name with
    comdats := m.comdats, attributeGroups := m.attributeGroups,
    metadata := m.metadata } _ m.namedMetadata.distinct
  unfold mergeRest
  dsimp only
  rw [hattributes, hnodes, hc, ha, hm, hnamed]
  rfl

theorem merge_alone (hm : m.WellNamed) (hn : ∀ e ∈ m.metadata.entries, e.2.id = e.1)
    (name : String) :
    ∃ g, mergeAll name [m] = .ok g ∧ g.dest = alone m name := by
  obtain ⟨g, hg, hput⟩ := @joinFresh m.identifier (symbolsInOrder m)
    ((Merger.empty name).yielded m m.targetTriple m.dataLayout m.sourceFilename)
    (fun s _ => by rw [yielded_empty]; rfl) (nodup_symbolsInOrder hm)
  have hhead : g.dest = headAlone m name := by
    rw [hput, yielded_empty, foldl_put_symbols hm rfl rfl]
    rfl
  have hjoin : joinSymbols (.empty name) m m.targetTriple m.dataLayout m.sourceFilename =
      .ok g := by
    rw [joinSymbols, arrived_empty, hg]
  refine ⟨finish (.empty name) m g, ?_, ?_⟩
  · show (Merger.empty name).merge m >>= pure = _
    rw [merge_empty, hjoin]
    rfl
  · show mergeRest g.dest ((Merger.empty name).arrived m) 0 0 = _
    rw [arrived_empty, hhead, mergeRest_alone hn]

/-! ## Printing -/

theorem toList_print (h : m.lines ≠ []) : m.print.toList = unlines (m.lines.map String.toList) := by
  rw [print, String.toList_append, String.toList_intercalate]
  exact intercalate_feed (by simpa using h)

theorem lines_metadata (m : IrModule) :
    m.lines = ({ m with namedMetadata := Table.empty, metadata := Table.empty } : IrModule).lines ++
      paragraph (m.namedMetadata.entries.map (fun e => namedMetadataLine e.1 e.2) ++
        (byNumber m.metadata).map fun e => e.2.line) := by
  have hnil : paragraph
      ((empty : Table String (List Nat)).entries.map (fun e => namedMetadataLine e.1 e.2) ++
      (byNumber (empty : Table Nat MetadataNode)).map fun e => e.2.line) = [] := by
    have hb : byNumber (empty : Table Nat MetadataNode) = [] := mergeSort_nil
    rw [hb]
    rfl
  unfold IrModule.lines
  rw [hnil, append_nil]

theorem named_of_print {t t' : Table String (List Nat)} (hne : t.entries ≠ [])
    (hne' : t'.entries ≠ []) (hb : ∀ e ∈ t.entries, Breakless (namedMetadataLine e.1 e.2).toList)
    (hb' : ∀ e ∈ t'.entries, Breakless (namedMetadataLine e.1 e.2).toList)
    (h : ({ m with namedMetadata := t } : IrModule).print =
      ({ m with namedMetadata := t' } : IrModule).print) :
    t.entries.map (fun e => namedMetadataLine e.1 e.2) = t'.entries.map fun e =>
  namedMetadataLine e.1 e.2 := by
  have hlines (u : Table String (List Nat)) (hu : u.entries ≠ []) :
      ({ m with namedMetadata := u } : IrModule).lines =
      ({ m with namedMetadata := empty, metadata := empty } : IrModule).lines ++
        "" :: ((u.entries.map fun e => namedMetadataLine e.1 e.2) ++
          (byNumber m.metadata).map fun e => e.2.line) := by
    rw [lines_metadata, paragraph]
    simp [hu]
  generalize ({ m with namedMetadata := empty, metadata := empty } : IrModule).lines =
    before at hlines
  generalize (byNumber m.metadata).map (fun e => e.2.line) = behind at hlines
  have htext (u : Table String (List Nat)) (hu : u.entries ≠ []) :
      ({ m with namedMetadata := u } : IrModule).print.toList =
        unlines (before.map String.toList) ++ '\n' ::
          (unlines ((u.entries.map fun e => namedMetadataLine e.1 e.2).map String.toList) ++
            unlines (behind.map String.toList)) := by
    rw [toList_print (by rw [hlines u hu]; simp), hlines u hu]
    simp
  have hcut := congrArg String.toList h
  rw [htext t hne, htext t' hne', append_cancel_left_eq, cons_inj_right,
    append_cancel_right_eq] at hcut
  have hread {u : Table String (List Nat)} (hu : ∀ e ∈ u.entries,
      Breakless (namedMetadataLine e.1 e.2).toList) :
      lines (unlines ((u.entries.map fun e => namedMetadataLine e.1 e.2).map String.toList)) =
        (u.entries.map fun e => namedMetadataLine e.1 e.2).map String.toList := by
    refine lines_unlines fun l hl => ?_
    rw [map_map] at hl
    obtain ⟨e, he, rfl⟩ := mem_map.1 hl
    exact hu e he
  have hlines := congrArg Text.lines hcut
  rw [hread hb, hread hb'] at hlines
  exact map_injective_iff.2 (fun _ _ => String.toList_inj.1) hlines

theorem ids_of_line {name : String} (hn : bareName? name.toList = some (name.toList, []))
    {ids ids' : List Nat}
    (h : namedMetadataLine name ids = namedMetadataLine name ids') : ids = ids' := by
  have hread (ids : List Nat) : namedMetadataLine? (namedMetadataLine name ids).toList =
      some (name, ids) := by
    have hline := toList_line (.named name ids)
    dsimp only [Entity.line] at hline
    rw [hline]
    exact namedMetadataLine?_written hn ids
  have := hread ids
  rw [h, hread ids'] at this
  exact (Prod.mk.inj (Option.some.inj this)).2.symm

/-- No text stands twice in the lists that repeat none. -/
def DistinctTexts (m : IrModule) : Prop :=
  ∀ e ∈ m.namedMetadata.entries, e.1 ∈ textSets → (e.2.filterMap (textOf m.metadata)).Nodup

instance (m : IrModule) : Decidable (DistinctTexts m) :=
  inferInstanceAs (Decidable (∀ e ∈ m.namedMetadata.entries, _))

theorem namedAlone_eq_self (m : IrModule) (e : String × List Nat) :
    namedAlone m.metadata e = e.2 ↔
    (e.1 ∈ textSets → (e.2.filterMap (textOf m.metadata)).Nodup) := by
  unfold namedAlone
  split_ifs with h
  · rw [newTexts_eq_self]
    simp [contains_iff_mem.1 h]
  · exact iff_of_true rfl fun he => absurd (contains_iff_mem.2 he) h

/-- **A module joined alone.** Of a module that was read, with functions and global values under
different names and no line that stands twice, a fresh destination holds everything, apart from the
identifier and later nodes of one text in the two lists that repeat none; and its text is that of
the module under the new identifier exactly if no text stands twice in these lists. -/
theorem join_alone {text identifier : String} (h : IrModule.parse text identifier = .ok m)
    (hd : ∀ x ∈ m.functions.keys, x ∉ m.globals.keys) (hx : m.extraLines.Nodup) (name : String) :
    ∃ g, mergeAll name [m] = .ok g ∧
      (∃ named, g.dest = { m with identifier := name, namedMetadata := named } ∧
        named.entries = m.namedMetadata.entries.map fun e => (e.1, namedAlone m.metadata e)) ∧
      (g.dest.print = { m with identifier := name }.print ↔ DistinctTexts m) := by
  have hk := keyed_of_parse h
  have hsound := (fromLines_of_parse h).1.named
  obtain ⟨g, hg, hdest⟩ := merge_alone (hk.wellNamed hd) hk.node name
  have hentries :
      (ofList (m.namedMetadata.entries.map fun e => (e.1, namedAlone m.metadata e))).entries =
      m.namedMetadata.entries.map fun e => (e.1, namedAlone m.metadata e) := by
    refine entries_ofList ?_
    rw [map_map]
    exact m.namedMetadata.distinct
  have hlines : addLines [] m.extraLines = m.extraLines := addLines_of_nodup hx
  have hdest : g.dest = { { m with identifier := name } with
      namedMetadata :=
      ofList (m.namedMetadata.entries.map fun e => (e.1, namedAlone m.metadata e)) } := by
    rw [hdest, alone, hlines]
  refine ⟨g, hg, ⟨_, hdest, hentries⟩, ?_⟩
  rw [hdest]
  constructor
  · intro hprint e he
    have hlines := @named_of_print { m with identifier := name } _ m.namedMetadata
      (by rw [hentries]; simpa using ne_nil_of_mem he) (ne_nil_of_mem he)
      (by
        rw [hentries]
        intro e' he'
        obtain ⟨e, he, rfl⟩ := mem_map.1 he'
        exact breakless_line (e := .named e.1 (namedAlone m.metadata e)) (hsound e he) trivial)
      (fun e he => breakless_line (e := .named e.1 e.2) (hsound e he) trivial) hprint
    rw [hentries, map_map] at hlines
    exact (namedAlone_eq_self m e).1 (ids_of_line (hsound e he) (map_inj_left.1 hlines e he))
  · intro ht
    have hself : m.namedMetadata.entries.map (fun e => (e.1, namedAlone m.metadata e)) =
        m.namedMetadata.entries := by
      conv_rhs => rw [← map_id m.namedMetadata.entries]
      exact map_congr_left fun e he => Prod.ext rfl ((namedAlone_eq_self m e).2 (ht e he))
    rw [hself, ofList_entries]

/-- A module with a type, a global value, a function, a line for the assembler, three nodes of one
text and two lists of nodes, of which the second repeats no text. -/
def sampleLone : String :=
  "target triple = \"t\"\nmodule asm \"nop\"\n%s = type \x7b i32 \x7d\n" ++
  "@x = internal global %s zeroinitializer\n" ++
  "define ptr @f() #0 \x7b\n  ret ptr @x, !dbg !1\n\x7d\nattributes #0 = \x7b nounwind \x7d\n" ++
  "!list = !\x7b!0, !1\x7d\n" ++
  "!llvm.ident = !\x7b!2\x7d\n!0 = !\x7b!\"c\"\x7d\n!1 = !\x7b!\"c\"\x7d\n!2 = !\x7b!\"c\"\x7d\n"

set_option maxRecDepth 100000 in
theorem sampleLone_joined :
    ∃ m g, IrModule.parse sampleLone "lone" = .ok m ∧ m.symbolNames = ["f", "x"] ∧
    mergeAll "out" [m] = .ok g ∧ g.dest.print = { m with identifier := "out" }.print := by
  have hok : (parse sampleLone "lone").toOption.any (fun m => m.symbolNames = ["f", "x"] &&
      decide (∀ x ∈ m.functions.keys, x ∉ m.globals.keys) && decide m.extraLines.Nodup &&
      decide (DistinctTexts m)) =
      true := by
    decide +kernel
  cases hp : parse sampleLone "lone" with
  | error e => rw [hp] at hok; cases hok
  | ok m =>
    rw [hp] at hok
    simp only [Except.toOption, Option.any_some, Bool.and_eq_true, decide_eq_true_eq] at hok
    obtain ⟨⟨⟨hs, hd⟩, hx⟩, ht⟩ := hok
    obtain ⟨g, hg, -, hprint⟩ := join_alone hp hd hx "out"
    exact ⟨m, g, rfl, hs, hg, hprint.2 ht⟩

/-- A module whose list of writers names one text twice, and one that gives the assembler one line
twice. -/
def repeating : String × String :=
  ("!llvm.ident = !\x7b!0, !1\x7d\n!0 = !\x7b!\"c\"\x7d\n!1 = !\x7b!\"c\"\x7d\n",
   "module asm \"nop\"\nmodule asm \"nop\"\n")

set_option maxRecDepth 100000 in
/-- In the destination the text and the line stand once. -/
theorem repeating_shortened :
    (do let m ← (IrModule.parse repeating.1 "").toOption
        let g ← (mergeAll "" [m]).toOption
        some (m.namedMetadata.entries, g.dest.namedMetadata.entries)) =
      some ([("llvm.ident", [0, 1])], [("llvm.ident", [0])]) ∧
    (do let m ← (IrModule.parse repeating.2 "").toOption
        let g ← (mergeAll "" [m]).toOption
        some (m.extraLines, g.dest.extraLines)) =
      some (["module asm \"nop\"", "module asm \"nop\""], ["module asm \"nop\""]) := by
  decide +kernel

end CallAtlas.Link
