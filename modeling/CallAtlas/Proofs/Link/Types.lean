import CallAtlas.Proofs.Ir.Unfolding
import CallAtlas.Proofs.Link.Faithful

/-!
# Named types after a run

A join keeps a type that is present with the same text and gives any other type a name of its own.
What the types of the destination are after it is `get?_merge_types`. A kept type may mention a type
that gets another name afterwards: its text then means the type that was present. `Unmixed` says
that this happens to types with one unfolding only, and it holds of every join of a run if and only
if every type of every module unfolds in the destination as it did in its module.
-/

namespace CallAtlas.Link

open Ir IrModule List

/-! ## Types that can be linked -/

/-- The names of all types survive their written form, and the bodies are well-formed and mention
types of the module only. -/
@[mk_iff] structure TypesLinkable (m : IrModule) : Prop where
  readable : ∀ x ∈ m.types.keys, refNames typeReader (quoteName x "%") = [x]
  body : ∀ e ∈ m.types.entries, BodyForm e.2
  closed : ∀ e ∈ m.types.entries, ∀ y ∈ refNames typeReader e.2, y ∈ m.types.keys

instance (m : IrModule) : Decidable (TypesLinkable m) := decidable_of_iff' _ (typesLinkable_iff ..)

namespace TypesLinkable

variable {m : IrModule}

theorem grounded (h : TypesLinkable m) : Grounded m.types :=
  ⟨fun hb => h.body _ (Table.get?_eq_some.1 hb), fun hb => h.closed _ (Table.get?_eq_some.1 hb)⟩

theorem legible (h : TypesLinkable m) {x : String} (hx : x ∈ m.types.keys) : Legible x.toList := by
  refine legible_of_refNames (show typeReader.read = _ from rfl) bareForm_bareName? (by decide)
    (show "%".toList = _ from rfl) ?_
  rw [h.readable x hx]
  rfl

end TypesLinkable

variable {g g' : Merger} {src : IrModule}

/-! ## The new names of types -/

theorem types_shifted (g : Merger) (hs : TypesLinkable src) : (g.shifted src).types = src.types :=
  Table.map_eq_self fun e he => (hs.body e he).shiftNumbered_eq _ _

theorem typeNames_sound (g : Merger) (hs : TypesLinkable src) :
    (typeRenaming g.dest (g.shifted src)).Sound g.dest.types.keys src.types.keys := by
  have h := typeRenaming_sound g.dest (g.shifted src)
  rwa [types_shifted g hs] at h

theorem Renaming.Sound.reads {names : List String} {r : Renaming} (h : r.Sound names src.types.keys)
    (hs : TypesLinkable src) : TypeNames r.mapping.get? := by
  refine ⟨fun {x y} hxy => ?_⟩
  obtain ⟨-, n, rfl⟩ := h.only hxy
  have hn := suffixed_numbered x n
  exact ⟨writable_suffixed hn, hn.readsBack rfl bareForm_bareName? id (hs.legible (h.shared hxy).2)⟩

theorem Renaming.Sound.separates {names incoming : List String} {r : Renaming}
    (h : r.Sound names incoming) :
    Separates r.mapping incoming := by
  intro a ha b hb he
  have hnew {x y : String} (hx : r.mapping.get? x = some y) : y ∉ incoming :=
    fun hy => (h.only hx).1 (mem_append_right _ hy)
  rcases newName_eq_newName hnew hnew ha hb he with ⟨hab, -⟩ | ⟨z, hz, hz'⟩
  · exact hab
  · exact h.inj hz hz'

theorem typeNames_reads (hs : TypesLinkable src) : TypeNames (g.typeNames src).get? :=
  (typeNames_sound g hs).reads hs

/-- A type that is present and keeps its name is present with the same text. -/
theorem typeNames_kept (hd : Grounded g.dest.types) (hs : TypesLinkable src) {x b b' : String}
    (hx : src.types.get? x = some b) (hx' : g.dest.types.get? x = some b')
    (hn : (g.typeNames src).get? x = none) :
    b' = b := by
  have hn' : (src.types.entries.foldl (Renaming.decide g.dest.types)
      ⟨g.dest.types.keys ++ src.types.keys, Table.empty⟩).mapping.get? x = none := by
    unfold Merger.typeNames at hn
    rwa [typeRenaming_eq, types_shifted g hs] at hn
  obtain ⟨r, hr, rfl⟩ := (Renaming.Sound.start g.dest.types.keys src.types.keys).kept
    (fun e he => mem_map_of_mem he) (Table.get?_eq_some.1 hx) hx' hn'
  refine renameWith_absent fun y hy => ?_
  -- a new name in the text would be one of the destination
  cases hry : r.mapping.get? y with
  | none => rfl
  | some z =>
    have hz : z ∈ refNames typeReader (renameTypes r.mapping.get? b) := by
      rw [(hr.reads hs).refNames_eq (hs.grounded.body hx)]
      exact mem_map.2 ⟨y, hy, by rw [hry]; rfl⟩
    exact absurd (mem_append_left _ (hd.closed hx' z hz)) (hr.only hry).1

/-! ## The types after a join -/

theorem get?_types_retyped (hs : TypesLinkable src) {y b : String} :
    (g.retyped src).types.get? y = some b ↔ ∃ x b0, src.types.get? x = some b0 ∧
      newName (g.typeNames src) x = y ∧ renameTypes (g.typeNames src).get? b0 = b := by
  have ht : (g.retyped src).types = Table.ofList (src.types.entries.map fun e =>
      (newName (g.typeNames src) e.1, renameTypes (g.typeNames src).get? e.2)) := by
    unfold Merger.retyped renameTypesOf
    split_ifs with he
    · rw [types_shifted g hs, newName_of_isEmpty he, renameTypes_of_isEmpty he]
      exact (congrArg Table.ofList (map_id _)).trans (Table.ofList_entries _) |>.symm
    · show Table.ofList (((g.shifted src).types.map _).entries.map _) = _
      rw [types_shifted g hs, Table.map, map_map]
      rfl
  rw [ht]
  exact Table.get?_ofList_rekey (f := fun _ b => renameTypes (g.typeNames src).get? b)
    (typeNames_sound g hs).separates

theorem get?_addNew {ν : Type} (t : Table String ν) (es : List (String × ν)) (k : String) :
    (addNew t es).get? k = (t.get? k).or (Table.find k es) := by
  unfold addNew
  induction es generalizing t with
  | nil => simp [Table.find]
  | cons e es ih =>
    rw [foldl_cons, ih, Table.get?_insertNew]
    by_cases h : e.1 = k
    · cases t.get? k <;> simp [Table.find, h]
    · cases t.get? k <;> simp [Table.find, h]

theorem get?_merge_types (hd : Grounded g.dest.types) (hs : TypesLinkable src)
    (h : g.merge src = .ok g') (y : String) :
    g'.dest.types.get? y = (g.dest.types.get? y).or ((g.retyped src).types.get? y) := by
  rw [(merge_rest h).types, Table.get?_map, get?_addNew]
  show Option.map _ ((g.dest.types.get? y).or ((g.retyped src).types.get? y)) = _
  cases hy : g.dest.types.get? y with
  | some b => exact congrArg some ((hd.body hy).renameGlobals_eq _)
  | none =>
    cases hy' : (g.retyped src).types.get? y with
    | none => rfl
    | some b =>
      obtain ⟨x, b0, hx, -, rfl⟩ := (get?_types_retyped hs).1 hy'
      exact congrArg some (((typeNames_reads hs).bodyForm (hs.grounded.body hx)).renameGlobals_eq _)

structure TypesStep (g : Merger) (src : IrModule) (g' : Merger) : Prop where
  grounded : Grounded g'.dest.types
  held : ∀ {x}, x ∈ src.types.keys → newName (g.typeNames src) x ∈ g'.dest.types.keys
  /-- Types that were present stay. -/
  present : ∀ {x b}, g.dest.types.get? x = some b → g'.dest.types.get? x = some b
  /-- An incoming type that is present and keeps its name has the text of the present one. -/
  kept : ∀ {x b}, src.types.get? x = some b → x ∈ g.dest.types.keys →
    (g.typeNames src).get? x = none → g'.dest.types.get? x = some b
  /-- Any other incoming type stands under its new name. -/
  moved : ∀ {x b}, src.types.get? x = some b →
    ¬ (x ∈ g.dest.types.keys ∧ (g.typeNames src).get? x = none) →
    g'.dest.types.get? (newName (g.typeNames src) x) = some (renameTypes (g.typeNames src).get? b)

theorem types_step (hd : Grounded g.dest.types) (hs : TypesLinkable src)
    (h : g.merge src = .ok g') :
    TypesStep g src g' := by
  have hsound := typeNames_sound g hs
  have hget := get?_merge_types hd hs h
  have hkeys : ∀ {x}, x ∈ g.dest.types.keys → x ∈ g'.dest.types.keys := by
    intro x hx
    obtain ⟨b, hb⟩ := Table.exists_get? hx
    rw [Table.mem_keys, hget, hb]
    rfl
  have hnew : ∀ {x}, x ∈ src.types.keys → newName (g.typeNames src) x ∈ g'.dest.types.keys := by
    intro x hx
    obtain ⟨b, hb⟩ := Table.exists_get? hx
    rw [Table.mem_keys, hget, (get?_types_retyped hs).2 ⟨x, b, hb, rfl, rfl⟩]
    cases g.dest.types.get? (newName (g.typeNames src) x) <;> rfl
  refine ⟨⟨?_, ?_⟩, hnew, ?_, ?_, ?_⟩
  · intro y b hy
    rw [hget] at hy
    rcases Option.or_eq_some_iff.1 hy with hy | ⟨-, hy⟩
    · exact hd.body hy
    · obtain ⟨x, b0, hx, -, rfl⟩ := (get?_types_retyped hs).1 hy
      exact (typeNames_reads hs).bodyForm (hs.grounded.body hx)
  · intro y b hy z hz
    rw [hget] at hy
    rcases Option.or_eq_some_iff.1 hy with hy | ⟨-, hy⟩
    · exact hkeys (hd.closed hy z hz)
    · obtain ⟨x, b0, hx, -, rfl⟩ := (get?_types_retyped hs).1 hy
      have hrefs : refNames typeReader (renameTypes (g.typeNames src).get? b0) =
          (refNames typeReader b0).map (newName (g.typeNames src)) :=
        (typeNames_reads hs).refNames_eq (hs.grounded.body hx)
      rw [hrefs] at hz
      obtain ⟨w, hw, rfl⟩ := mem_map.1 hz
      exact hnew (hs.grounded.closed hx w hw)
  · intro x b hx
    rw [hget, hx]
    rfl
  · intro x b hx hk hn
    obtain ⟨b', hx'⟩ := Table.exists_get? hk
    rw [hget, hx', typeNames_kept hd hs hx hx' hn]
    rfl
  · intro x b hx hk
    have hfree : g.dest.types.get? (newName (g.typeNames src) x) = none := by
      rw [Table.get?_eq_none]
      intro hm
      cases hn : (g.typeNames src).get? x with
      | none =>
        rw [newName, hn] at hm
        exact hk ⟨hm, hn⟩
      | some y =>
        rw [newName, hn] at hm
        exact (hsound.only hn).1 (mem_append_left _ hm)
    rw [hget, hfree]
    exact (get?_types_retyped hs).2 ⟨x, b, hx, rfl, rfl⟩

/-! ## Unfoldings after a join -/

/-- A type that keeps its name mentions a type with a new name only if the latter unfolds as the
type that was present under its old name. -/
def Unmixed (g : Merger) (src : IrModule) : Prop :=
  ∀ x b, src.types.get? x = some b → x ∈ g.dest.types.keys → (g.typeNames src).get? x = none →
    ∀ y ∈ refNames typeReader b, (g.typeNames src).get? y ≠ none →
      ∀ n, unfolding g.dest.types n y = unfolding src.types n y

/-- The types of a module unfold in a destination, under new names, as they do in the module. -/
def UnfoldsAs (g : Merger) (m : IrModule) (type : String → String) : Prop :=
  ∀ x ∈ m.types.keys, ∀ n, unfolding g.dest.types n (type x) = unfolding m.types n x

namespace TypesStep

variable (h : TypesStep g src g') (hd : Grounded g.dest.types)
include h hd

theorem unfolding_present (n : Nat) {x : String} (hx : x ∈ g.dest.types.keys) :
    unfolding g'.dest.types n x = unfolding g.dest.types n x :=
  unfolding_extend hd h.present n hx

/-- Where no two types are mixed up, every incoming type unfolds as before. -/
theorem unfoldsAs (hs : TypesLinkable src) (hu : Unmixed g src) :
    UnfoldsAs g' src (newName (g.typeNames src)) := by
  have hsound := typeNames_sound g hs
  intro x hx n
  induction n generalizing x with
  | zero => rfl
  | succ n ih =>
    obtain ⟨b, hb⟩ := Table.exists_get? hx
    have hc := hs.grounded.closed hb
    by_cases hk : x ∈ g.dest.types.keys ∧ (g.typeNames src).get? x = none
    · obtain ⟨hk, hn⟩ := hk
      have hnx : newName (g.typeNames src) x = x := by rw [newName, hn]; rfl
      rw [hnx, unfolding_succ (h.kept hb hk hn), unfolding_succ hb, spread_eq_iff]
      intro y hy
      cases hny : (g.typeNames src).get? y with
      | none =>
        have := ih y (hc y hy)
        rwa [newName, hny] at this
      | some z =>
        rw [h.unfolding_present hd n (hsound.shared hny).1]
        exact hu x b hb hk hn y hy (by rw [hny]; simp) n
    · rw [unfolding_succ (h.moved hb hk), unfolding_succ hb,
        (typeNames_reads hs).spread_eq (hs.grounded.body hb), spread_eq_iff]
      intro y hy
      exact ih y (hc y hy)

theorem unmixed (hs : TypesLinkable src) (hu : UnfoldsAs g' src (newName (g.typeNames src))) :
    Unmixed g src := by
  intro x b hb hk hn y hy hny n
  have hnx : newName (g.typeNames src) x = x := by rw [newName, hn]; rfl
  obtain ⟨z, hz⟩ := Option.ne_none_iff_exists'.1 hny
  have hxu := hu x (Table.mem_keys_of_get? hb) (n + 1)
  rw [hnx, unfolding_succ (h.kept hb hk hn), unfolding_succ hb, spread_eq_iff] at hxu
  rw [← h.unfolding_present hd n ((typeNames_sound g hs).shared hz).1]
  exact hxu y hy

end TypesStep

/-! ## References to types -/

/-- The transformation gives references to types the new names of the types. -/
def Retypes (t type : String → String) : Prop :=
  ∀ text : String, Tidy typeReader text.toList → Tidy typeReader (t text).toList ∧
    refNames typeReader (t text) = (refNames typeReader text).map type

theorem Retypes.comp {t t' type type' : String → String} (h' : Retypes t' type')
    (h : Retypes t type) :
    Retypes (t' ∘ t) (type' ∘ type) := by
  intro text ht
  obtain ⟨h1, h2⟩ := h text ht
  obtain ⟨h3, h4⟩ := h' _ h1
  refine ⟨h3, ?_⟩
  rw [Function.comp, h4, h2, map_map]

theorem retypes_edit {p : Char → Bool} (hp : p '%' = false) {t : String → String}
    (h : ∀ text, terminated false text.toList → Edit p text.toList (t text).toList) :
    Retypes t id := by
  intro text ht
  obtain ⟨h1, h2⟩ :=
    (h text ht.terminated).references sigiled_typeReader.sighted (sigiled_typeReader.spared hp)
  refine ⟨h2.2 ht, ?_⟩
  rw [map_id, refNames, h1]
  rfl

theorem retypes_local (g : Merger) (src : IrModule) (side : Side) :
    Retypes (renameGlobals ((g.localNames src).side side).get?) id :=
  retypes_edit (by decide) fun _ ht => renameGlobals_edit (localNames_writable side) ht

theorem retypes_yielding (g : Merger) (src : IrModule) : Retypes (g.yielding src).text id :=
  retypes_local g src .dest

theorem retypes_arrival (g : Merger) (hs : TypesLinkable src) :
    Retypes (g.arrival src).text (newName (g.typeNames src)) := by
  have hshift : Retypes (shiftNumbered g.dest.nextMetadata g.dest.nextAttributeGroup) id :=
    retypes_edit (by decide) fun _ ht => shiftNumbered_edit _ _ ht
  have htypes : Retypes (renameTypes (g.typeNames src).get?) (newName (g.typeNames src)) := by
    intro text ht
    obtain ⟨h1, h2⟩ := renameWith_refNames sigiled_typeReader (show "%".toList = _ from rfl)
      (typeNames_reads hs).reads ht
    exact ⟨h2, h1⟩
  exact (retypes_local g src .source).comp (htypes.comp hshift)

/-! ## Unfoldings after a run -/

variable {identifier : String} {modules : List IrModule} {js : List Joined}

structure TypesRun (g : Merger) (js : List Joined) : Prop where
  grounded : Grounded g.dest.types
  held : ∀ j ∈ js, ∀ x ∈ j.source.types.keys, j.passage.type x ∈ g.dest.types.keys
  retypes : ∀ j ∈ js, Retypes j.passage.text j.passage.type

theorem TypesRun.snoc (h : TypesRun g js) (hs : TypesLinkable src) (hm : g.merge src = .ok g') :
    TypesRun g' (g.advance src js) := by
  have hstep := types_step h.grounded hs hm
  refine ⟨hstep.grounded, ?_, ?_⟩
  · intro j hj x hx
    rcases mem_advance hj with ⟨i, hi, rfl⟩ | rfl
    · obtain ⟨b, hb⟩ := Table.exists_get? (h.held i hi x hx)
      exact Table.mem_keys_of_get? (hstep.present hb)
    · exact hstep.held hx
  · intro j hj
    rcases mem_advance hj with ⟨i, hi, rfl⟩ | rfl
    · exact (retypes_yielding g src).comp (h.retypes i hi)
    · exact retypes_arrival g hs

/-- After a join the types of all modules unfold as before if they did so far and the join mixes up
no two types. -/
theorem TypesRun.unfoldsAs_snoc (h : TypesRun g js) (hs : TypesLinkable src)
    (hm : g.merge src = .ok g') :
    (∀ j ∈ g.advance src js, UnfoldsAs g' j.source j.passage.type) ↔
      (∀ j ∈ js, UnfoldsAs g j.source j.passage.type) ∧ Unmixed g src := by
  have hstep := types_step h.grounded hs hm
  have hpresent : ∀ j ∈ js, UnfoldsAs g' j.source j.passage.type ↔
      UnfoldsAs g j.source j.passage.type := by
    intro j hj
    refine forall₃_congr fun x hx n => ?_
    rw [hstep.unfolding_present h.grounded n (h.held j hj x hx)]
  constructor
  · intro hu
    refine ⟨fun j hj => (hpresent j hj).1 ?_,
      hstep.unmixed h.grounded hs (hu _ arrival_mem_advance)⟩
    exact hu (j.andThen (g.yielding src)) (andThen_mem_advance hj)
  · rintro ⟨hu, hmix⟩ j hj
    rcases mem_advance hj with ⟨i, hi, rfl⟩ | rfl
    · exact (hpresent i hi).2 (hu i hi)
    · exact hstep.unfoldsAs h.grounded hs hmix

/-- No join of a run mixes up two types. -/
def UnmixedRun (identifier : String) (modules : List IrModule) : Prop :=
  ∀ before m after g, modules = before ++ m :: after → mergeAll identifier before = .ok g →
    Unmixed g m

theorem unmixedRun_snoc (h : mergeAll identifier modules = .ok g) :
    UnmixedRun identifier (modules ++ [src]) ↔ UnmixedRun identifier modules ∧ Unmixed g src := by
  constructor
  · intro hu
    refine ⟨?_, hu modules src [] g rfl h⟩
    rintro before m after g0 rfl hg
    exact hu before m (after ++ [src]) g0 (by simp) hg
  · rintro ⟨hu, hmix⟩ before m after g0 he hg
    rcases eq_nil_or_concat after with rfl | ⟨after, b, rfl⟩
    · obtain ⟨rfl, htl⟩ := append_inj' he rfl
      obtain rfl := (cons.inj htl).1
      rw [h] at hg
      rwa [← Except.ok.inj hg]
    · rw [concat_eq_append, ← cons_append, ← append_assoc] at he
      obtain ⟨rfl, -⟩ := append_inj' he rfl
      exact hu before m after g0 rfl hg

theorem trackAll_types (hl : ∀ m ∈ modules, TypesLinkable m)
    (h : trackAll identifier modules = .ok (g, js)) :
    TypesRun g js ∧ ((∀ j ∈ js, UnfoldsAs g j.source j.passage.type) ↔
      UnmixedRun identifier modules) := by
  revert hl
  refine trackAll_induction (P := fun ms g js => (∀ m ∈ ms, TypesLinkable m) → TypesRun g js ∧
    ((∀ j ∈ js, UnfoldsAs g j.source j.passage.type) ↔ UnmixedRun identifier ms)) ?_ ?_ h
  · intro _
    refine ⟨⟨⟨nofun, nofun⟩, nofun, nofun⟩, ⟨fun _ before m after g he => ?_, fun _ => nofun⟩⟩
    simp at he
  · intro ms g js src g' ht ih hm hl
    obtain ⟨hr, hu⟩ := ih fun m hm => hl m (mem_append_left _ hm)
    have hs := hl src (mem_append_right _ mem_cons_self)
    have ho : mergeAll identifier ms = .ok g := by rw [mergeAll_eq, ht]; rfl
    exact ⟨hr.snoc hs hm, by rw [hr.unfoldsAs_snoc hs hm, hu, unmixedRun_snoc ho]⟩

/-- References to a type are given its new name, and every type of every module unfolds in the
destination, under that name, as it did in its module, if and only if no join mixes up two types. -/
theorem types_unfold_alike_iff (hl : ∀ m ∈ modules, TypesLinkable m)
    (h : mergeAll identifier modules = .ok g) :
    ∃ js, trackAll identifier modules = .ok (g, js) ∧ js.map Joined.source = modules ∧
      (∀ j ∈ js, Retypes j.passage.text j.passage.type) ∧
      ((∀ j ∈ js, ∀ x ∈ j.source.types.keys, ∀ n,
          unfolding g.dest.types n (j.passage.type x) = unfolding j.source.types n x) ↔
        ∀ before m after g₀, modules = before ++ m :: after → mergeAll identifier before = .ok g₀ →
        Unmixed g₀ m) := by
  obtain ⟨js, ht⟩ := exists_trackAll h
  obtain ⟨hr, hu⟩ := trackAll_types hl ht
  exact ⟨js, ht, sources_trackAll ht, hr.retypes, hu⟩

/-- Whether no type that keeps its name mentions one with a new name. -/
def unmixed (g : Merger) (src : IrModule) : Bool :=
  src.types.entries.all fun e =>
    !g.dest.types.contains e.1 || ((g.typeNames src).get? e.1).isSome ||
    (refNames typeReader e.2).all fun y => ((g.typeNames src).get? y).isNone

theorem unmixed_of_unmixed (h : unmixed g src) : Unmixed g src := by
  intro x b hx hk hn y hy hny
  have he := all_eq_true.1 h _ (Table.get?_eq_some.1 hx)
  rw [Table.contains_eq_true.2 hk, hn] at he
  have hnone : ∀ y ∈ refNames typeReader b, (g.typeNames src).get? y = none := by simpa using he
  exact absurd (hnone y hy) hny

/-- Two modules with two types of the same names, one of which mentions the other. The mentioned one
differs. -/
def sampleTypes : IrModule × IrModule :=
  ({ types := .ofList [("A", "\x7b %B, ptr \x7d"), ("B", "\x7b i32 \x7d"),
    ("L", "\x7b %L, i8 \x7d")] },
   { types := .ofList [("B", "\x7b i64 \x7d"), ("A", "\x7b %B, ptr \x7d"),
     ("L", "\x7b %L, i8 \x7d")] })

set_option maxRecDepth 100000 in
theorem sampleTypes_unfold : (∀ m ∈ [sampleTypes.1, sampleTypes.2], TypesLinkable m) ∧
    ∃ g js, mergeAll "out" [sampleTypes.1, sampleTypes.2] = .ok g ∧
      trackAll "out" [sampleTypes.1, sampleTypes.2] = .ok (g, js) ∧
      ∀ j ∈ js, ∀ x ∈ j.source.types.keys, ∀ n,
        unfolding g.dest.types n (j.passage.type x) = unfolding j.source.types n x := by
  have hl : ∀ m ∈ [sampleTypes.1, sampleTypes.2], TypesLinkable m := by decide +kernel
  have hmix : ∀ {before m}, (mergeAll "out" before).toOption.all (unmixed · m) = true →
      ∀ g, mergeAll "out" before = .ok g → Unmixed g m := by
    intro before m h g hg
    rw [hg] at h
    exact unmixed_of_unmixed h
  obtain ⟨g, hg⟩ :=
    exists_eq_ok (x := mergeAll "out" [sampleTypes.1, sampleTypes.2]) (by decide +kernel)
  obtain ⟨js, ht, -, -, hu⟩ := types_unfold_alike_iff hl hg
  refine ⟨hl, g, js, hg, ht, hu.2 fun before m after g₀ he => ?_⟩
  match before, he with
  | [], he =>
    obtain rfl := (cons.inj he).1
    exact hmix (by decide +kernel) g₀
  | [_], he =>
    obtain ⟨rfl, htl⟩ := cons.inj he
    obtain rfl := (cons.inj htl).1
    exact hmix (by decide +kernel) g₀
  | _ :: _ :: _, he => simp at he

/-- The same with the types of the second module in the order of the first. -/
def mixedTypes : IrModule × IrModule :=
  ({ types := .ofList [("A", "\x7b %B \x7d"), ("B", "\x7b i32 \x7d")] },
   { types := .ofList [("A", "\x7b %B \x7d"), ("B", "\x7b i64 \x7d")] })

set_option maxRecDepth 100000 in
/-- The type that mentions the other keeps its name, because the other has got no new name yet. -/
theorem mixedTypes_differ : TypesLinkable mixedTypes.1 ∧ TypesLinkable mixedTypes.2 ∧
    (trackAll "out" [mixedTypes.1, mixedTypes.2]).toOption.map (fun r => r.2.map fun j =>
      decide (unfolding r.1.dest.types 2 (j.passage.type "A") = unfolding j.source.types 2 "A")) =
        some [true, false] := by
  decide +kernel

end CallAtlas.Link
