import CallAtlas.Ir.Module
import CallAtlas.Proofs.Ir.Keywords
import CallAtlas.Proofs.Table

/-!
# The symbol table of a module

The view of a module's symbols is `IrModule.symbol?`. In a module that is `WellNamed` it determines
both tables, and what the operations on symbols do is said through it: `symbol?_putSymbol`,
`symbol?_removeSymbol`, `symbol?_mapText` and `symbol?_renameSymbols`. A symbol whose text and names
were changed is its `Symbol.relabel`; its linkage stays, and if its kind word comes before any
reference, so does whether it is a declaration.
-/

namespace CallAtlas.Ir

/-! ## Relabelled symbols -/

namespace Symbol

/-- The symbol with its texts transformed and under another name. -/
def relabel (text name : String → String) : Symbol → Symbol
  | .function f => .function { f.mapText text with name := name f.name }
  | .global g => .global { g.mapText text with name := name g.name }

variable {text name : String → String} {s : Symbol}

@[simp] theorem name_relabel (s : Symbol) : (s.relabel text name).name = name s.name := by
  cases s <;> rfl

theorem relabel_relabel (text' name' : String → String) (s : Symbol) :
    (s.relabel text name).relabel text' name' = s.relabel (text' ∘ text) (name' ∘ name) := by
  cases s with
  | function f => simp [relabel, Function.mapText]
  | global g => rfl

theorem relabel_const (s : Symbol) :
    s.relabel text (fun _ => name s.name) = s.relabel text name := by
  cases s <;> rfl

theorem relabel_id (s : Symbol) : s.relabel id id = s := by
  cases s with
  | function f =>
    simp [relabel, Function.mapText]
  | global g => rfl

/-- The header of a function opens with its keyword. -/
def Headed : Symbol → Prop
  | .function f => f.Headed
  | .global _ => True

/-- Whether the kind word of a global value comes before any reference. -/
def kindFirst : Symbol → Bool
  | .function _ => true
  | .global g => g.kindFirst

theorem headed_relabel (ht : KeepsLead text) (hs : s.Headed) : (s.relabel text name).Headed := by
  cases s with
  | function f => exact Function.headed_mapText ht hs
  | global g => trivial

theorem linkage_relabel (ht : KeepsLead text) (hs : s.Headed) :
    (s.relabel text name).linkage = s.linkage := by
  cases s with
  | function f => exact Function.linkage_mapText ht hs
  | global g => exact Global.linkage_mapText ht g

theorem isLocal_relabel (ht : KeepsLead text) (hs : s.Headed) :
    (s.relabel text name).isLocal = s.isLocal := by
  unfold isLocal
  rw [linkage_relabel ht hs]

theorem kindFirst_relabel (ht : KeepsLead text) (hs : s.kindFirst) :
    (s.relabel text name).kindFirst := by
  cases s with
  | function f => rfl
  | global g => exact Global.kindFirst_mapText ht hs

theorem isDeclaration_relabel (ht : KeepsLead text) (hs : s.kindFirst) :
    (s.relabel text name).isDeclaration = s.isDeclaration := by
  cases s with
  | function f => exact Function.isDeclaration_mapText ht f
  | global g => exact Global.isDeclaration_mapText ht hs

end Symbol

end CallAtlas.Ir

namespace CallAtlas.IrModule

open Ir Table

variable {m : IrModule} {x y : String} {s : Symbol}

/-! ## The view -/

theorem symbol?_eq_function {f : Function} :
    m.symbol? x = some (.function f) ↔ m.functions.get? x = some f := by
  unfold symbol?
  cases hf : m.functions.get? x with
  | some f' => simp
  | none => simp

/-- The symbol stands under the name in the table of its kind. -/
def Holds (m : IrModule) (x : String) : Symbol → Prop
  | .function f => m.functions.get? x = some f
  | .global g => m.globals.get? x = some g

theorem holds_of_symbol? (h : m.symbol? x = some s) : m.Holds x s := by
  unfold symbol? at h
  split at h
  · next hf => exact Option.some.inj h ▸ hf
  · obtain ⟨g, hg, rfl⟩ := Option.map_eq_some_iff.1 h
    exact hg

theorem mem_symbolNames : x ∈ m.symbolNames ↔ (m.symbol? x).isSome := by
  unfold symbolNames symbol?
  rw [List.mem_append, List.mem_filter, mem_keys, mem_keys, contains]
  cases m.functions.get? x with
  | some f => simp
  | none => simp

theorem Holds.mem_symbolNames (h : m.Holds x s) : x ∈ m.symbolNames := by
  rw [IrModule.mem_symbolNames, symbol?]
  cases hf : m.functions.get? x with
  | some f => rfl
  | none =>
    cases s with
    | function f => exact nomatch hf.symm.trans h
    | global g => rw [show m.globals.get? x = some g from h]; rfl

theorem mem_definitions : s ∈ m.definitions ↔ (∃ x, m.Holds x s) ∧ s.isDeclaration = false := by
  unfold definitions
  cases s with
  | function f => simp [Symbol.isDeclaration, mem_values, Holds]
  | global g => simp [Symbol.isDeclaration, mem_values, Holds]

theorem nodup_symbolNames (m : IrModule) : m.symbolNames.Nodup := by
  refine List.nodup_append'.2 ⟨m.functions.distinct, m.globals.distinct.filter _, ?_⟩
  intro x hf hg
  have hg := (List.mem_filter.1 hg).2
  rw [contains_eq_true.2 hf] at hg
  cases hg

theorem mem_symbolNames_of_symbol? (h : m.symbol? x = some s) : x ∈ m.symbolNames :=
  mem_symbolNames.2 (by rw [h]; rfl)

/-- Symbols stand under their own names, no name is a function and a global value, and the header of
each function opens with its keyword. -/
@[mk_iff] structure WellNamed (m : IrModule) : Prop where
  function : ∀ e ∈ m.functions.entries, e.2.name = e.1 ∧ e.2.Headed
  global : ∀ e ∈ m.globals.entries, e.2.name = e.1
  disjoint : ∀ x ∈ m.functions.keys, x ∉ m.globals.keys

instance (m : IrModule) : Decidable m.WellNamed := decidable_of_iff' _ (wellNamed_iff ..)

/-- Symbols stand under their own names, and no name is a function and a global value. -/
structure Keyed (m : IrModule) : Prop where
  function : ∀ e ∈ m.functions.entries, e.2.name = e.1
  global : ∀ e ∈ m.globals.entries, e.2.name = e.1
  disjoint : ∀ x ∈ m.functions.keys, x ∉ m.globals.keys

theorem Keyed.symbol?_eq_global (hm : m.Keyed) {g : Global} :
    m.symbol? x = some (.global g) ↔ m.globals.get? x = some g := by
  unfold symbol?
  cases hf : m.functions.get? x with
  | some f =>
    have hx := hm.disjoint x (mem_keys_of_get? hf)
    rw [get?_eq_none.2 hx]
    simp
  | none => simp

theorem Keyed.symbol?_iff (hm : m.Keyed) : m.symbol? x = some s ↔ m.Holds x s := by
  cases s with
  | function f => exact symbol?_eq_function
  | global g => exact hm.symbol?_eq_global

theorem Keyed.name_eq (hm : m.Keyed) (h : m.symbol? x = some s) : s.name = x := by
  cases s with
  | function f => exact hm.function _ (get?_eq_some.1 (holds_of_symbol? h))
  | global g => exact hm.global _ (get?_eq_some.1 (holds_of_symbol? h))

namespace WellNamed

theorem keyed (hm : m.WellNamed) : m.Keyed :=
  ⟨fun e he => (hm.function e he).1, hm.global, hm.disjoint⟩

theorem symbol?_eq_global (hm : m.WellNamed) {g : Global} :
    m.symbol? x = some (.global g) ↔ m.globals.get? x = some g :=
  hm.keyed.symbol?_eq_global

theorem holds (hm : m.WellNamed) (h : m.Holds x s) : s.name = x ∧ s.Headed := by
  cases s with
  | function f => exact hm.function _ (get?_eq_some.1 h)
  | global g => exact ⟨hm.global _ (get?_eq_some.1 h), trivial⟩

theorem name_eq (hm : m.WellNamed) (h : m.symbol? x = some s) : s.name = x :=
  (hm.holds (holds_of_symbol? h)).1

theorem headed (hm : m.WellNamed) (h : m.symbol? x = some s) : s.Headed :=
  (hm.holds (holds_of_symbol? h)).2

theorem of_holds (hn : ∀ {x s}, m.Holds x s → s.name = x ∧ s.Headed)
    (hd : ∀ x ∈ m.functions.keys, x ∉ m.globals.keys) : m.WellNamed :=
  ⟨fun e he => hn (s := .function e.2) (get?_eq_some.2 he),
    fun e he => (hn (s := .global e.2) (get?_eq_some.2 he)).1, hd⟩

theorem of_subset {m' : IrModule} (hm : m.WellNamed) (h : ∀ {x s}, m'.Holds x s → m.Holds x s) :
    m'.WellNamed := by
  refine .of_holds (fun hs => hm.holds (h hs)) fun x hf hg => ?_
  obtain ⟨f, hf⟩ := exists_get? hf
  obtain ⟨g, hg⟩ := exists_get? hg
  exact hm.disjoint x (mem_keys_of_get? (h (s := .function f) hf))
    (mem_keys_of_get? (h (s := .global g) hg))

theorem empty (identifier : String) : WellNamed { identifier } := by
  refine ⟨?_, ?_, ?_⟩ <;> intro e he <;> cases he

end WellNamed

/-! ## Putting and removing symbols -/

/-- The name of the symbol is free for its kind: the other table does not hold it. -/
def Fits (m : IrModule) : Symbol → Prop
  | .function f => f.name ∉ m.globals.keys
  | .global g => g.name ∉ m.functions.keys

theorem fits_of_absent (h : m.symbol? s.name = none) : m.Fits s := by
  unfold symbol? at h
  split at h
  · cases h
  · next hf =>
    have hg := Option.map_eq_none_iff.1 h
    cases s with
    | function f => exact get?_eq_none.1 hg
    | global g => exact get?_eq_none.1 hf

theorem symbol?_putSymbol (h : m.Fits s) :
    (m.putSymbol s).symbol? y = if s.name = y then some s else m.symbol? y := by
  cases s with
  | function f => by_cases hy : f.name = y <;> simp [putSymbol, symbol?, Symbol.name, hy]
  | global g =>
    have hf : m.functions.get? g.name = none := get?_eq_none.2 h
    by_cases hy : g.name = y
    · simp [putSymbol, symbol?, Symbol.name, ← hy, hf]
    · simp [putSymbol, symbol?, Symbol.name, hy]

theorem mem_keys_insert {ν : Type} {t : Table String ν} {v : ν} :
    y ∈ (t.insert x v).keys ↔ x = y ∨ y ∈ t.keys := by
  rw [mem_keys, get?_insert, mem_keys]
  split_ifs with h <;> simp [h]

theorem holds_putSymbol {r : Symbol} (h : (m.putSymbol r).Holds y s) :
    r = s ∧ r.name = y ∨ m.Holds y s := by
  cases r with
  | function f =>
    cases s with
    | global g => exact .inr h
    | function f' =>
      simp only [putSymbol, Holds, get?_insert] at h
      split_ifs at h with hn
      · exact .inl ⟨congrArg Symbol.function (Option.some.inj h), hn⟩
      · exact .inr h
  | global g =>
    cases s with
    | function f => exact .inr h
    | global g' =>
      simp only [putSymbol, Holds, get?_insert] at h
      split_ifs at h with hn
      · exact .inl ⟨congrArg Symbol.global (Option.some.inj h), hn⟩
      · exact .inr h

theorem WellNamed.putSymbol (hm : m.WellNamed) (h : m.Fits s) (hs : s.Headed) :
    (m.putSymbol s).WellNamed := by
  refine .of_holds ?_ ?_
  · intro x s' hx
    rcases holds_putSymbol hx with ⟨rfl, hn⟩ | hx
    · exact ⟨hn, hs⟩
    · exact hm.holds hx
  · intro x hf hg
    cases s with
    | function f =>
      rcases mem_keys_insert.1 hf with rfl | hf
      · exact h hg
      · exact hm.disjoint x hf hg
    | global g =>
      rcases mem_keys_insert.1 hg with rfl | hg
      · exact h hf
      · exact hm.disjoint x hf hg

theorem symbol?_removeSymbol :
    (m.removeSymbol x).symbol? y = if x = y then none else m.symbol? y := by
  simp only [removeSymbol, symbol?, get?_erase]
  split_ifs <;> rfl

theorem holds_removeSymbol (h : (m.removeSymbol x).Holds y s) : m.Holds y s := by
  cases s <;> simp only [removeSymbol, Holds, get?_erase] at h <;> split_ifs at h <;> exact h

theorem WellNamed.removeSymbol (hm : m.WellNamed) (x : String) : (m.removeSymbol x).WellNamed :=
  hm.of_subset holds_removeSymbol

/-! ## Changing texts and names -/

theorem symbol?_mapText (t : String → String) :
    (m.mapText t).symbol? x = (m.symbol? x).map (Symbol.relabel t id) := by
  simp only [mapText, symbol?, get?_map]
  cases m.functions.get? x with
  | some f => rfl
  | none =>
    cases m.globals.get? x with
    | some g => rfl
    | none => rfl

theorem holds_mapText {t : String → String} (h : (m.mapText t).Holds x s) :
    ∃ u, m.Holds x u ∧ u.relabel t id = s := by
  cases s with
  | function f =>
    obtain ⟨u, hu, rfl⟩ := Option.map_eq_some_iff.1 ((get?_map ..).symm.trans h)
    exact ⟨.function u, hu, rfl⟩
  | global g =>
    obtain ⟨u, hu, rfl⟩ := Option.map_eq_some_iff.1 ((get?_map ..).symm.trans h)
    exact ⟨.global u, hu, rfl⟩

theorem WellNamed.mapText (hm : m.WellNamed) {t : String → String} (ht : KeepsLead t) :
    (m.mapText t).WellNamed := by
  refine .of_holds ?_ ?_
  · intro x s hx
    obtain ⟨u, hu, rfl⟩ := holds_mapText hx
    exact ⟨(Symbol.name_relabel u).trans (hm.holds hu).1, Symbol.headed_relabel ht (hm.holds hu).2⟩
  · simp only [IrModule.mapText, keys_map]
    exact hm.disjoint

/-- The new name of a symbol. -/
def newName (mapping : Table String String) (x : String) : String := (mapping.get? x).getD x

/-- No two of the names come to one name. -/
def Separates (mapping : Table String String) (names : List String) : Prop :=
  ∀ a ∈ names, ∀ b ∈ names, newName mapping a = newName mapping b → a = b

section rename

variable {mapping : Table String String}

theorem renameGlobals_of_isEmpty (h : mapping.isEmpty) : renameGlobals mapping.get? = id :=
  funext fun text => renameWith_none globalReader "@" (isEmpty_iff.1 h) text

theorem newName_of_isEmpty (h : mapping.isEmpty) : newName mapping = id :=
  funext fun x => by rw [newName, isEmpty_iff.1 h]; rfl

/-- Two names come to one only if they are the same and stay or get the same new name. -/
theorem newName_eq_newName {mapping' : Table String String} {names : List String}
    (h : ∀ {x y}, mapping.get? x = some y → y ∉ names)
    (h' : ∀ {x y}, mapping'.get? x = some y → y ∉ names)
    (hx : x ∈ names) (hy : y ∈ names) (he : newName mapping x = newName mapping' y) :
    x = y ∧ mapping.get? x = none ∧ mapping'.get? y = none ∨ ∃ z, mapping.get? x = some z ∧
    mapping'.get? y = some z := by
  unfold newName at he
  cases hx' : mapping.get? x <;> cases hy' : mapping'.get? y <;>
    simp only [hx', hy', Option.getD_none, Option.getD_some] at he
  · exact .inl ⟨he, rfl, rfl⟩
  · exact absurd hx (he ▸ h' hy')
  · exact absurd hy (he ▸ h hx')
  · exact .inr ⟨_, rfl, congrArg some he.symm⟩

/-- A symbol of a renamed module is a relabelled symbol, under its new name if it stood under its
own. -/
theorem holds_renameSymbols (h : (m.renameSymbols mapping).Holds y s) :
    ∃ x u z, m.Holds x u ∧ newName mapping x = y ∧
      u.relabel (renameGlobals mapping.get?) (fun _ => z) = s ∧ (u.name = x → z = y) := by
  unfold renameSymbols at h
  split_ifs at h with he
  · refine ⟨y, s, id s.name, h, by rw [newName_of_isEmpty he]; rfl, ?_, id⟩
    rw [renameGlobals_of_isEmpty he, Symbol.relabel_const, s.relabel_id]
  · cases s with
    | function f =>
      obtain ⟨_, hmem, he⟩ :=
        List.mem_map.1 (List.mem_reverse.1 (mem_of_find ((get?_ofList ..).symm.trans h)))
      obtain ⟨e, hm, rfl⟩ := List.mem_map.1 hmem
      obtain ⟨rfl, rfl⟩ := Prod.mk.inj he
      exact ⟨e.1, .function e.2, _, get?_eq_some.2 hm, rfl, rfl, fun _ => rfl⟩
    | global g =>
      obtain ⟨_, hmem, he⟩ :=
        List.mem_map.1 (List.mem_reverse.1 (mem_of_find ((get?_ofList ..).symm.trans h)))
      obtain ⟨e, hm, rfl⟩ := List.mem_map.1 hmem
      obtain ⟨rfl, rfl⟩ := Prod.mk.inj he
      exact ⟨e.1, .global e.2, _, get?_eq_some.2 hm, rfl, rfl, fun _ => rfl⟩

theorem mem_symbolNames_of_globals (h : x ∈ m.globals.keys) : x ∈ m.symbolNames := by
  obtain ⟨g, hg⟩ := exists_get? h
  exact Holds.mem_symbolNames (s := .global g) hg

theorem Holds.renameSymbols (h : m.Holds x s) (hn : s.name = x)
    (hs : Separates mapping m.symbolNames) :
    (m.renameSymbols mapping).Holds (newName mapping x)
      (s.relabel (renameGlobals mapping.get?) (newName mapping)) := by
  unfold IrModule.renameSymbols
  split_ifs with he
  · rw [newName_of_isEmpty he, renameGlobals_of_isEmpty he, s.relabel_id]
    exact h
  · subst hn
    cases s with
    | function f =>
      exact (get?_ofList_rekey_map (f := fun x (u : Function) =>
        { u with name := newName mapping x })
        fun a ha b hb => hs a (List.mem_append_left _ ha) b (List.mem_append_left _ hb)).2 ⟨_, f, h,
        rfl, rfl⟩
    | global g =>
      exact (get?_ofList_rekey_map (f := fun x (u : Global) => { u with name := newName mapping x })
        fun a ha b hb => hs a (mem_symbolNames_of_globals ha) b (mem_symbolNames_of_globals hb)).2
        ⟨_, g, h, rfl, rfl⟩

theorem WellNamed.renameSymbols (hm : m.WellNamed) (hs : Separates mapping m.symbolNames) :
    (m.renameSymbols mapping).WellNamed := by
  refine .of_holds ?_ ?_
  · intro y s h
    obtain ⟨x, u, z, hu, -, rfl, hz⟩ := holds_renameSymbols h
    obtain ⟨hn, hu⟩ := hm.holds hu
    exact ⟨(Symbol.name_relabel u).trans (hz hn),
      Symbol.headed_relabel (keepsLead_renameGlobals _) hu⟩
  · intro y hf hg
    obtain ⟨f, hf⟩ := exists_get? hf
    obtain ⟨g, hg⟩ := exists_get? hg
    obtain ⟨a, u, _, hu, ha, he, -⟩ := holds_renameSymbols (s := .function f) hf
    obtain ⟨b, v, _, hv, hb, he', -⟩ := holds_renameSymbols (s := .global g) hg
    obtain rfl := hs a hu.mem_symbolNames b hv.mem_symbolNames (ha.trans hb.symm)
    cases u with
    | global u => cases he
    | function u =>
      cases v with
      | function v => cases he'
      | global v => exact hm.disjoint a (mem_keys_of_get? hu) (mem_keys_of_get? hv)

theorem WellNamed.symbol?_renameSymbols (hm : m.WellNamed) (hs : Separates mapping m.symbolNames) :
    (m.renameSymbols mapping).symbol? y = some s ↔
      ∃ x u, m.symbol? x = some u ∧ newName mapping x = y ∧
        u.relabel (renameGlobals mapping.get?) (newName mapping) = s := by
  rw [(hm.renameSymbols hs).keyed.symbol?_iff]
  constructor
  · intro h
    obtain ⟨x, u, z, hu, rfl, rfl, hz⟩ := holds_renameSymbols h
    obtain rfl := (hm.holds hu).1
    rw [hz rfl]
    exact ⟨_, u, hm.keyed.symbol?_iff.2 hu, rfl, u.relabel_const.symm⟩
  · rintro ⟨x, u, hu, rfl, rfl⟩
    exact (holds_of_symbol? hu).renameSymbols (hm.name_eq hu) hs

end rename

end CallAtlas.IrModule
