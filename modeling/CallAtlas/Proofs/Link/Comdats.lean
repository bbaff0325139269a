import CallAtlas.Proofs.Ir.Comdats
import CallAtlas.Proofs.Link.Types

/-!
# Comdat groups after a run

A join adds the comdats of the incoming module to those of the destination, `mem_comdats_merge`, and
the passages of a run keep the comdat groups of modules that are `PlainlyGrouped`. Two arrays
outside any group make one outside any, `ungrouped_joinArrays`. So a symbol of the destination is in
the group that it was in, unless the group is implied by its name and the name is a new one:
`comdats_declared_iff` says when all groups are declared in the end, and `comdats_lost` shows what
becomes of groups without its conditions.
-/

namespace CallAtlas.Link

open Ir IrModule Text List

variable {before behind body gap head s type : List Char}

/-! ## Concatenated arrays -/

/-- Whether an array stands in no comdat group and is framed. -/
def ungrouped (s : List Char) : Bool := overt s && framed s && (findComdat? none s).isNone

theorem ungrouped_iff : ungrouped s ↔ overt s ∧ framed s ∧ findComdat? none s = none := by
  rw [ungrouped, Bool.and_eq_true, Bool.and_eq_true, Option.isNone_iff_eq_none, and_assoc]

theorem findComdat?_trim (h : findComdat? none s = none) : findComdat? none (trim s) = none := by
  rw [← findComdat?_trimLeft] at h
  obtain ⟨t, ht, hb⟩ := trimRight_append (trimLeft s)
  rw [ht] at h
  cases t with
  | nil => rwa [append_nil] at h
  | cons c t =>
    exact ((findComdat?_eq_none_append (keywordMayFollow_blank (hb c mem_cons_self))).1 h).1

theorem findComdat?_fields (h : findComdat? none s = none) :
    ∀ f ∈ fields s, findComdat? none f = none :=
  forall_fields findComdat?_trim (fun _ h => (findComdat?_eq_none_append (by decide)).1 h) h

theorem findComdat?_intercalate {es : List (List Char)} (h : ∀ e ∈ es, findComdat? none e = none) :
    findComdat? none ([',', ' '].intercalate es) = none := by
  refine forall_intercalate (P := fun u => findComdat? none u = none) rfl (fun {u v} hu hv => ?_) h
  rw [findComdat?_eq_none_append (by decide), ← nil_append (' ' :: v),
    findComdat?_eq_none_append (by decide)]
  exact ⟨hu, rfl, hv⟩

theorem terminated_fields (hs : Ir.terminated false s) : ∀ f ∈ fields s, Ir.terminated false f := by
  refine forall_fields terminated_trim (fun {u v} hu h => ?_) hs
  have ht := hu.terminated h
  rw [terminated_append ht] at h
  exact ⟨ht, h⟩

theorem terminated_intercalate {es : List (List Char)} (h : ∀ e ∈ es, Ir.terminated false e) :
    Ir.terminated false ([',', ' '].intercalate es) := by
  refine forall_intercalate (P := fun u => terminated false u = true) rfl (fun {u v} hu hv => ?_) h
  rw [terminated_append hu]
  exact hv

theorem findComdat?_noKeyword {u : List Char} (hu : 'c' ∉ u) :
    ∀ {p : Option Char}, findComdat? p u = none := by
  induction u with
  | nil => exact rfl
  | cons c u ih =>
    intro p
    rw [mem_cons, not_or] at hu
    rw [findComdat?_of_ne (symm hu.1)]
    exact ih hu.2

theorem Layout.head_blank (h : Layout s before head type gap body behind) :
    ∃ u d, head = u ++ [d] ∧ isBlank d := by
  obtain ⟨count, hr⟩ := h.reads
  obtain ⟨head', hh, -, hlast, -⟩ := arrayHead?_eq_some (hr ['y'])
  obtain rfl := (cons.inj (append_cancel_right hh)).2
  obtain ⟨d, hd, hblank⟩ := (Option.any_eq_true ..).1 hlast
  obtain ⟨u, hu⟩ := getLast?_eq_some_iff.1 hd
  exact ⟨u, d, hu, hblank⟩

theorem Layout.findComdat?_eq_none (h : Layout s before head type gap body behind) :
    findComdat? none s = none ↔
      findComdat? none before = none ∧ findComdat? none type = none ∧ findComdat? none gap = none ∧
        findComdat? none body = none ∧ findComdat? none behind = none := by
  obtain ⟨u, d, hhead, hd⟩ := h.head_blank
  have hs : s = before ++ '[' ::
      (u ++ d :: (type ++ ']' :: (gap ++ '[' :: (body ++ ']' :: behind)))) := by
    rw [h.text, hhead]
    simp
  have hu : findComdat? none u = none := by
    refine findComdat?_noKeyword fun hc => ?_
    exact absurd (h.head_chars 'c' (by rw [hhead]; simp [hc])) (by decide)
  rw [hs, findComdat?_eq_none_append (by decide),
    findComdat?_eq_none_append (keywordMayFollow_blank hd),
    findComdat?_eq_none_append (by decide), findComdat?_eq_none_append (by decide),
    findComdat?_eq_none_append (by decide)]
  simp only [hu, true_and]

theorem ungrouped_joinArrays {first second name text : String} (h₁ : ungrouped first.toList)
    (h₂ : ungrouped second.toList) (h : joinArrays first second name = .ok text) :
    ungrouped text.toList := by
  obtain ⟨ho1, hf1, hn1⟩ := ungrouped_iff.1 h₁
  obtain ⟨ho2, hf2, hn2⟩ := ungrouped_iff.1 h₂
  obtain ⟨a, b, ha, hb, htext⟩ := joinArrays_ok h
  obtain ⟨head, type, gap, body, hpa⟩ := exists_parts ha
  obtain ⟨head', type', gap', body', hpb⟩ := exists_parts hb
  have hl := hpa.layout_whole (terminated_of_overt ho1) hf1
  have hl' := hpb.layout_whole (terminated_of_overt ho2) hf2
  obtain ⟨hbefore, htype, -, hbody, hbehind⟩ := hl.findComdat?_eq_none.1 hn1
  obtain ⟨-, -, -, hbody', -⟩ := hl'.findComdat?_eq_none.1 hn2
  have helements : ∀ e ∈ (a.append b).elements, terminated false e ∧ findComdat? none e = none := by
    refine forall_mem_append.2 ⟨?_, ?_⟩
    · rw [hpa.elements]
      exact fun e he => ⟨terminated_fields hl.body_terminated e he, findComdat?_fields hbody e he⟩
    · rw [hpb.elements]
      exact fun e he => ⟨terminated_fields hl'.body_terminated e he, findComdat?_fields hbody' e he⟩
  obtain ⟨hlr, hfr⟩ := hl.append hpa hpb (terminated_intercalate fun e he => (helements e he).1)
  have hsilent := hlr.findComdat?_eq_none.2
    ⟨hbefore, findComdat?_trim htype, rfl, findComdat?_intercalate fun e he => (helements e he).2,
      hbehind⟩
  rw [htext, ungrouped_iff]
  exact ⟨overt_of_findComdat? hlr.terminated hsilent, hfr, hsilent⟩

/-! ## Passages -/

/-- A change of texts that keeps comdat groups and the frames of arrays. -/
structure KeepsGroups (t : String → String) : Prop where
  comdat : KeepsComdat t
  framed : ∀ {text : String}, overt text.toList → framed text.toList → framed (t text).toList

namespace KeepsGroups

variable {t u : String → String}

theorem comp (hu : KeepsGroups u) (ht : KeepsGroups t) : KeepsGroups (u ∘ t) where
  comdat := hu.comdat.comp ht.comdat
  framed := fun ho hf => hu.framed (ht.comdat _ ho).1 (ht.framed ho hf)

theorem of_edit (ht : KeepsComdat t) {p : Char → Bool}
    (he : ∀ {text : String}, terminated false text.toList → Edit p text.toList (t text).toList) :
    KeepsGroups t where
  comdat := ht
  framed := fun ho hf => framed_loose (.closed (he (terminated_of_overt ho))) hf

theorem ungrouped (ht : KeepsGroups t) {text : String} (h : ungrouped text.toList) :
    Link.ungrouped (t text).toList := by
  obtain ⟨ho, hf, hn⟩ := ungrouped_iff.1 h
  exact ungrouped_iff.2 ⟨(ht.comdat _ ho).1, ht.framed ho hf, (ht.comdat _ ho).2.trans hn⟩

end KeepsGroups

/-- A module whose comdat groups can be followed through joins: symbols stand under their own names,
and no text of a symbol and no name holds the keyword between quotes. -/
structure PlainlyGrouped (m : IrModule) : Prop where
  named : m.WellNamed
  texts : ∀ s ∈ symbolsInOrder m, overt s.groupText.toList
  symbols : ∀ x ∈ m.symbolNames, calm (escape x.toList)
  types : ∀ x ∈ m.types.keys, calm (escape x.toList)

variable {g g' : Merger} {src : IrModule} {js : List Joined}

theorem numbered_unheard {x : String} (h : calm (escape x.toList)) (n : Nat) :
    Writable (numbered x n).toList ∧ Unheard (numbered x n).toList :=
  ⟨writable_suffixed (suffixed_numbered x n), (suffixed_numbered x n).unheard h⟩

theorem keepsGroups_renameLocals (g : Merger) (hs : PlainlyGrouped src) (side : Side) :
    KeepsGroups (renameGlobals ((g.localNames src).side side).get?) := by
  have hw : ∀ {x y}, ((g.localNames src).side side).get? x = some y → Writable y.toList ∧
      Unheard y.toList := by
    intro x y h
    obtain ⟨hx, n, rfl⟩ := localNames_numbered side h
    exact numbered_unheard (hs.symbols x hx) n
  exact .of_edit (keepsComdat_renameGlobals hw) (renameGlobals_edit fun h => (hw h).1)

theorem keepsGroups_yielding (g : Merger) (hs : PlainlyGrouped src) :
    KeepsGroups (g.yielding src).text :=
  keepsGroups_renameLocals g hs .dest

theorem keepsGroups_arrival (g : Merger) (hs : PlainlyGrouped src) :
    KeepsGroups (g.arrival src).text := by
  have hw : ∀ {x y}, (g.typeNames src).get? x = some y → Writable y.toList ∧ Unheard y.toList := by
    intro x y h
    obtain ⟨hx, n, rfl⟩ := typeNames_numbered h
    exact numbered_unheard (hs.types x hx) n
  have hshift : KeepsGroups (shiftNumbered g.dest.nextMetadata g.dest.nextAttributeGroup) :=
    .of_edit (keepsComdat_shiftNumbered _ _) (shiftNumbered_edit _ _)
  have htypes : KeepsGroups (renameTypes (g.typeNames src).get?) :=
    .of_edit (keepsComdat_renameTypes hw) (renameTypes_edit fun h => (hw h).1)
  exact (keepsGroups_renameLocals g hs .source).comp (htypes.comp hshift)

/-! ## The comdats of the destination -/

theorem mem_comdats_merge (h : g.merge src = .ok g') {c : String} :
    c ∈ g'.dest.comdats.keys ↔ c ∈ g.dest.comdats.keys ∨ c ∈ src.comdats.keys := by
  rw [(merge_rest h).comdats, Table.mem_keys, Table.mem_keys, Table.mem_keys, get?_addNew,
    Option.isSome_or, Bool.or_eq_true]
  rfl

/-! ## Runs -/

/-- Every symbol of the module is in no comdat group or in one that the module declares. -/
def ComdatsDeclared (m : IrModule) : Prop :=
  ∀ s ∈ symbolsInOrder m, ∀ c ∈ s.comdat, c ∈ m.comdats.keys

/-- Arrays of one name in two modules, which are concatenated, are outside any comdat group. -/
def ArraysUngrouped (m m' : IrModule) : Prop :=
  ∀ a ∈ m.globals.values, ∀ b ∈ m'.globals.values, a.name = b.name →
  a.linkage = .appending → b.linkage = .appending →
    ungrouped a.segment.toList ∧ ungrouped b.segment.toList

/-- The module has a visible array of the name. -/
def HasArray (m : IrModule) (y : String) : Prop :=
  ∃ a, visible? m y = some (.global a) ∧ a.linkage = .appending

theorem ArraysUngrouped.of_hasArray {m m' : IrModule} (h : ArraysUngrouped m m') (hm : m.WellNamed)
    (hm' : m'.WellNamed)
    {y : String} {a b : Global} (ha : visible? m y = some (.global a))
    (hb : visible? m' y = some (.global b))
    (hla : a.linkage = .appending) (hlb : b.linkage = .appending) :
    ungrouped a.segment.toList ∧ ungrouped b.segment.toList := by
  obtain ⟨ha, -⟩ := visible?_eq_some.1 ha
  obtain ⟨hb, -⟩ := visible?_eq_some.1 hb
  have hna : a.name = y := hm.name_eq ha
  have hnb : b.name = y := hm'.name_eq hb
  refine h a ?_ b ?_ (hna.trans hnb.symm) hla hlb
  · exact Table.mem_values.2 ⟨_, IrModule.holds_of_symbol? ha⟩
  · exact Table.mem_values.2 ⟨_, IrModule.holds_of_symbol? hb⟩

/-- What a run makes of comdat groups: passages keep them, the destination declares those of all
modules, and a visible symbol is one of a module after its passage or an array outside any group. -/
structure Grouped (js : List Joined) (g : Merger) : Prop where
  keeps : ∀ j ∈ js, KeepsGroups j.passage.text
  comdats : ∀ j ∈ js, ∀ c ∈ j.source.comdats.keys, c ∈ g.dest.comdats.keys
  origin : ∀ {y r}, visible? g.dest y = some r →
    (∃ j ∈ js, ∃ s, visible? j.source y = some s ∧ j.passage.symbol s = r) ∨
      ungrouped r.groupText.toList ∧ ∃ j ∈ js, HasArray j.source y

theorem exists_array {p : Passage} (hp : KeepsLead p.text) {s : Symbol} {a : Global}
    (h : p.symbol s = .global a)
    (hl : a.linkage = .appending) :
    ∃ a0, s = .global a0 ∧ a0.linkage = .appending ∧ a.segment = p.text a0.segment := by
  cases s with
  | function f => cases h
  | global a0 =>
    obtain rfl := Symbol.global.inj h
    exact ⟨a0, rfl, (Global.linkage_mapText hp a0).symm.trans hl, rfl⟩

/-- What the destination held as an array that is now joined with one of the incoming module. -/
theorem Grouped.array_ungrouped (h : Grouped js g) (hc : Composed js g) (hs : PlainlyGrouped src)
    (ha : ∀ j ∈ js, ArraysUngrouped j.source src) {y : String} {a₁ b : Global}
    (he : visible? g.dest y = some (.global a₁))
    (hla : a₁.linkage = .appending) (hb : visible? src y = some (.global b))
    (hlb : b.linkage = .appending) :
    ungrouped a₁.segment.toList ∧ ungrouped b.segment.toList := by
  rcases h.origin he with ⟨j, hj, s, hv, hr⟩ | ⟨hu, j, hj, a, hv, hl⟩
  · obtain ⟨hw, hk⟩ := hc.source j hj
    obtain ⟨a, rfl, hl, hseg⟩ := exists_array hk hr hla
    obtain ⟨h1, h2⟩ := (ha j hj).of_hasArray hw hs.named hv hb hl hlb
    exact ⟨hseg ▸ (h.keeps j hj).ungrouped h1, h2⟩
  · exact ⟨hu, ((ha j hj).of_hasArray (hc.source j hj).1 hs.named hv hb hl hlb).2⟩

theorem Grouped.origin_snoc (h : Grouped js g) (hc : Composed js g) (hs : PlainlyGrouped src)
    (ha : ∀ j ∈ js, ArraysUngrouped j.source src) (hm : MergeStep g src g') {y : String}
    {r : Symbol} (hy : visible? g'.dest y = some r) :
    (∃ j ∈ g.advance src js, ∃ s, visible? j.source y = some s ∧ j.passage.symbol s = r) ∨
      ungrouped r.groupText.toList ∧ ∃ j ∈ g.advance src js, HasArray j.source y := by
  have hyield := keepsGroups_yielding g hs
  rcases hm.visible_cases hc.wellNamed hs.named hy with
    ⟨e, he, rfl⟩ | ⟨s, hv, rfl⟩ | ⟨e, s, a, b, segment, he, hv, hea, hsb, hla, hlb, hj, rfl⟩
  · rcases h.origin he with ⟨j, hj, s, hs', rfl⟩ | ⟨hu, j, hj, hs'⟩
    · exact .inl ⟨_, andThen_mem_advance hj, s, hs', Passage.symbol_andThen _ _ _⟩
    · refine .inr ⟨?_, _, andThen_mem_advance hj, hs'⟩
      rw [Passage.symbol, Symbol.groupText_relabel]
      exact hyield.ungrouped hu
  · exact .inl ⟨_, arrival_mem_advance, s, hv, rfl⟩
  · obtain ⟨a1, rfl, hla1, ha1⟩ := exists_array (keepsLead_yielding g src) hea hla
    obtain ⟨b1, rfl, hlb1, hb1⟩ := exists_array (keepsLead_arrival g src) hsb hlb
    obtain ⟨h1, h2⟩ := h.array_ungrouped hc hs ha he hla1 hv hlb1
    refine .inr ⟨ungrouped_joinArrays ?_ ?_ hj, _, arrival_mem_advance, b1, hv, hlb1⟩
    · exact ha1 ▸ hyield.ungrouped h1
    · exact hb1 ▸ (keepsGroups_arrival g hs).ungrouped h2

theorem Grouped.snoc (h : Grouped js g) (hc : Composed js g) (hs : PlainlyGrouped src)
    (ha : ∀ j ∈ js, ArraysUngrouped j.source src) (hm : g.merge src = .ok g') :
    Grouped (g.advance src js) g' := by
  refine ⟨fun j hj => ?_, fun j hj c hjc => ?_,
    h.origin_snoc hc hs ha (merge_step hc.wellNamed hs.named hm)⟩
  · rcases mem_advance hj with ⟨i, hi, rfl⟩ | rfl
    · exact (keepsGroups_yielding g hs).comp (h.keeps i hi)
    · exact keepsGroups_arrival g hs
  · rw [mem_comdats_merge hm]
    rcases mem_advance hj with ⟨i, hi, rfl⟩ | rfl
    · exact .inl (h.comdats i hi c hjc)
    · exact .inr hjc

theorem trackAll_grouped {identifier : String} {modules : List IrModule}
    (hp : ∀ m ∈ modules, PlainlyGrouped m)
    (ha : modules.Pairwise ArraysUngrouped) (h : trackAll identifier modules = .ok (g, js)) :
    Grouped js g ∧ Composed js g := by
  revert hp ha
  refine trackAll_induction (P := fun ms g js => (∀ m ∈ ms, PlainlyGrouped m) →
    ms.Pairwise ArraysUngrouped → Grouped js g ∧ Composed js g) ?_ ?_ h
  · exact fun _ _ => ⟨⟨nofun, nofun, nofun⟩, .empty identifier⟩
  · intro ms g js src g' ht ih hm hp ha
    obtain ⟨hms, -, hlast⟩ := pairwise_append.1 ha
    obtain ⟨hg, hc⟩ := ih (fun m hm => hp m (mem_append_left _ hm)) hms
    have hs := hp src (mem_append_right _ mem_cons_self)
    have ha' : ∀ j ∈ js, ArraysUngrouped j.source src := fun j hj =>
      hlast _ (sources_trackAll ht ▸ mem_map_of_mem hj) src mem_cons_self
    exact ⟨hg.snoc hc hs ha' hm, hc.snoc hs.named hm⟩

/-! ## Groups of the symbols -/

theorem comdat_of_impliesComdat {s : Symbol} (h : s.impliesComdat) : s.comdat = some s.name := by
  rw [Symbol.comdat_eq_comdatOf, comdatOf, of_decide_eq_true h]
  rfl

theorem mem_comdat_passage {p : Passage} (hp : KeepsGroups p.text) {s : Symbol}
    (hs : overt s.groupText.toList)
    {c : String} (hc : c ∈ (p.symbol s).comdat) :
    s.impliesComdat ∧ c = p.name s.name ∨ c ∈ s.comdat := by
  rw [Passage.symbol, Symbol.comdat_relabel hp.comdat p.name hs] at hc
  split_ifs at hc with hi
  · exact .inl ⟨hi, (Option.some.inj hc).symm⟩
  · exact .inr hc

/-- **Comdat groups.** Joining keeps the comdat groups of symbols declared exactly if every local
symbol whose group is implied by its own name has a name in the destination that is a declared
group. -/
theorem comdats_declared_iff {identifier : String} {modules : List IrModule}
    (hd : ∀ m ∈ modules, ComdatsDeclared m)
    (hp : ∀ m ∈ modules, PlainlyGrouped m) (ha : modules.Pairwise ArraysUngrouped)
    (h : mergeAll identifier modules = .ok g) :
    ∃ js, trackAll identifier modules = .ok (g, js) ∧ js.map Joined.source = modules ∧
      (ComdatsDeclared g.dest ↔ ∀ j ∈ js, ∀ s ∈ symbolsInOrder j.source, s.isLocal = true →
        s.impliesComdat = true → j.passage.name s.name ∈ g.dest.comdats.keys) := by
  obtain ⟨js, ht⟩ := exists_trackAll h
  have hsrc := sources_trackAll ht
  obtain ⟨hg, hc⟩ := trackAll_grouped hp ha ht
  refine ⟨js, ht, hsrc, fun hdest j hj s hs hl hi => ?_, fun himplied r hr c hrc => ?_⟩
  · have hjp := hp _ (hsrc ▸ mem_map_of_mem hj)
    have hheld := hc.held j hj ((mem_symbolsInOrder hjp.named).1 hs) hl
    have hname : (j.passage.symbol s).name = j.passage.name s.name := Symbol.name_relabel s
    refine hdest (j.passage.symbol s) ((mem_symbolsInOrder hc.wellNamed).2 (hname ▸ hheld)) _ ?_
    rw [Passage.symbol, Symbol.comdat_relabel (hg.keeps j hj).comdat _ (hjp.texts s hs), if_pos hi]
    rfl
  · have hr' := (mem_symbolsInOrder hc.wellNamed).1 hr
    -- a group that a module declares is declared in the destination
    have hdeclared : ∀ j ∈ js, ∀ s ∈ symbolsInOrder j.source, c ∈ s.comdat →
        c ∈ g.dest.comdats.keys :=
      fun j hj s hs hcs => hg.comdats j hj c (hd _ (hsrc ▸ mem_map_of_mem hj) s hs c hcs)
    cases hl : r.isLocal with
    | true =>
      obtain ⟨j, hj, x, s, hx, hsl, hn, rfl⟩ := hc.origin_local hr' hl
      have hjp := hp _ (hsrc ▸ mem_map_of_mem hj)
      have hs := mem_symbolsInOrder_of_symbol? hx
      rcases mem_comdat_passage (hg.keeps j hj) (hjp.texts s hs) hrc with ⟨hi, rfl⟩ | hcs
      · exact himplied j hj s hs hsl hi
      · exact hdeclared j hj s hs hcs
    | false =>
      rcases hg.origin (visible?_eq_some.2 ⟨hr', hl⟩) with ⟨j, hj, s, hv, hjr⟩ | ⟨hu, -⟩
      · have hjp := hp _ (hsrc ▸ mem_map_of_mem hj)
        obtain ⟨hx, -⟩ := visible?_eq_some.1 hv
        have hn : s.name = r.name := hjp.named.name_eq hx
        have hs := mem_symbolsInOrder_of_symbol? hx
        rw [← hjr] at hrc
        rcases mem_comdat_passage (hg.keeps j hj) (hjp.texts s hs) hrc with ⟨hi, hcn⟩ | hcs
        · -- a visible symbol keeps its name, and so the group that it implies
          rw [hn, (hc.visible j hj hv).1, ← hn] at hcn
          exact hdeclared j hj s hs (by rw [comdat_of_impliesComdat hi, hcn]; rfl)
        · exact hdeclared j hj s hs hcs
      · rw [Symbol.comdat_eq_comdatOf, comdatOf, (ungrouped_iff.1 hu).2.2] at hrc
        cases hrc

instance (m : IrModule) : Decidable (ComdatsDeclared m) :=
  inferInstanceAs (Decidable (∀ s ∈ symbolsInOrder m, ∀ c ∈ s.comdat, c ∈ m.comdats.keys))

/-- Two modules with a local symbol of one name, whose group is named, a symbol in the group of its
own name, and an array. -/
def sampleGroups : List IrModule :=
  [{ comdats := .ofList [("k", "any"), ("v", "any")]
     globals := .ofList [
       ("t", ⟨"t", "internal global i32 1, comdat($k)"⟩),
       ("v", ⟨"v", "linkonce_odr global i32 2, comdat"⟩),
       ("llvm.used",
         ⟨"llvm.used", "appending global [1 x ptr] [ptr @t], section \"llvm.metadata\""⟩)] },
   { comdats := .ofList [("k", "any")]
     globals := .ofList [
       ("t", ⟨"t", "internal global i32 3, comdat($k)"⟩),
       ("v", ⟨"v", "external global i32"⟩),
       ("llvm.used",
         ⟨"llvm.used", "appending global [1 x ptr] [ptr @t], section \"llvm.metadata\""⟩)] }]

set_option maxRecDepth 100000 in
theorem sampleGroups_declared :
    (∀ m ∈ sampleGroups, ComdatsDeclared m) ∧ (∀ m ∈ sampleGroups, PlainlyGrouped m) ∧
    sampleGroups.Pairwise ArraysUngrouped ∧ ∃ g, mergeAll "out" sampleGroups = .ok g ∧
    ComdatsDeclared g.dest := by
  have hread : (∀ m ∈ sampleGroups, ComdatsDeclared m ∧ m.WellNamed ∧
      (∀ s ∈ symbolsInOrder m, overt s.groupText.toList = true) ∧
      (∀ x ∈ m.symbolNames, calm (escape x.toList) = true) ∧
      (∀ x ∈ m.types.keys, calm (escape x.toList) = true) ∧
      ∀ s ∈ symbolsInOrder m, s.isLocal = true → s.impliesComdat = false) ∧
      (mergeAll "out" sampleGroups).isOk = true := by decide +kernel
  obtain ⟨hread, hok⟩ := hread
  have hd m (hm : m ∈ sampleGroups) : ComdatsDeclared m := (hread m hm).1
  have hp : ∀ m ∈ sampleGroups, PlainlyGrouped m := by
    intro m hm
    obtain ⟨-, hnamed, htexts, hsymbols, htypes, -⟩ := hread m hm
    exact ⟨hnamed, htexts, hsymbols, htypes⟩
  have ha : sampleGroups.Pairwise ArraysUngrouped := by
    unfold ArraysUngrouped
    decide +kernel
  obtain ⟨g, hg⟩ := exists_eq_ok hok
  obtain ⟨js, -, hsrc, hiff⟩ := comdats_declared_iff hd hp ha hg
  refine ⟨hd, hp, ha, g, hg, hiff.2 fun j hj s hs hl hi => ?_⟩
  rw [(hread _ (hsrc ▸ mem_map_of_mem hj)).2.2.2.2.2 s hs hl] at hi
  cases hi

/-! ## Groups that are lost -/

/-- The modules declare the groups of their symbols, and joined they do not. -/
def LoseGroups (ms : List IrModule) : Prop :=
  (∀ m ∈ ms, ComdatsDeclared m) ∧
    (mergeAll "out" ms).toOption.map (fun g => decide (ComdatsDeclared g.dest)) = some false

/-- A local symbol in the group of its own name is renamed, and the group is not. -/
def renamedMember : List IrModule :=
  [{ comdats := .ofList [("f", "any")],
     globals := .ofList [("f", ⟨"f", "internal global i32 1, comdat"⟩)] },
   { globals := .ofList [("f", ⟨"f", "global i32 2"⟩)] }]

/-- A renamed symbol is written without escapes, and its name holds the keyword. -/
def escapedKeyword : List IrModule :=
  let f : Function :=
    ⟨"a comdat b", "define internal void @\"a\\20comdat\\20b\"()", [⟨"", [⟨"  ret void"⟩], none⟩]⟩
  [{ functions := .ofList [(f.name, f)] }, { functions := .ofList [(f.name, f)] }]

/-- A renamed type is written without escapes, and its name holds the keyword. -/
def escapedType : List IrModule :=
  [{ types := .ofList [("a comdat b", "\x7b i32 \x7d")] },
   { types := .ofList [("a comdat b", "\x7b i64 \x7d")]
     globals := .ofList [("f", ⟨"f", "global %\"a\\20comdat\\20b\" zeroinitializer"⟩)] }]

/-- The keyword stands in a string, and what is read as the name of the group holds a number that
moves. -/
def quotedKeyword : List IrModule :=
  [{ metadata := .ofList [(0, ⟨0, "!\x7b\x7d"⟩)] },
   { comdats := .ofList [(", !associated !0, partition ", "any")]
     globals := .ofList
       [("f", ⟨"f", "global i32 1, section \" comdat($\", !associated !0, partition \")\""⟩)] }]

/-- The elements of an array hold the keyword behind the one that counts, and go to an array without
it. -/
def groupedElements : List IrModule :=
  [{ globals := .ofList [("f", ⟨"f", "appending global [1 x i32] [i32 1]"⟩)] },
   { comdats := .ofList [("k", "any")]
     globals := .ofList [("f", ⟨"f", "appending global comdat($k) [1 x i32] [i32 comdat]"⟩)] }]

/-- A visible variable has the name of a local function and is renamed with it. -/
def sharedName : List IrModule :=
  [{ functions := .ofList [("f", ⟨"f", "define void @f()", [⟨"", [⟨"  ret void"⟩], none⟩]⟩)] },
   { comdats := .ofList [("f", "any")]
     globals := .ofList [("f", ⟨"f", "global i32 1, comdat"⟩)]
     functions := .ofList [("f", ⟨"f", "declare internal void @f()", []⟩)] }]

set_option maxRecDepth 100000 in
/-- Declared groups are not kept in general: the first modules have a renamed member, and each of
the others break one of the conditions on texts and names. -/
theorem comdats_lost :
    LoseGroups renamedMember ∧ LoseGroups escapedKeyword ∧ LoseGroups escapedType ∧
    LoseGroups quotedKeyword ∧ LoseGroups groupedElements ∧ LoseGroups sharedName := by
  unfold LoseGroups
  decide +kernel

end CallAtlas.Link
