import CallAtlas.Proofs.Ir.Labels
import CallAtlas.Proofs.Ir.Unfolding
import CallAtlas.Proofs.Link.Locations

/-!
# Labels and results after a run

A join gives new names to types of the incoming module, and by the sigil that they share also to
labels and results that have the name of such a type. The labels of blocks stay. `locals_kept_iff`
says when a function keeps its labels resolved and its results apart: exactly if the new names of
its label operands are labels and its results have different new names. A function that uses no name
of a renamed type keeps both. This needs modules that are `LocallyTidy`.
-/

namespace CallAtlas.Ir.Function

open Ir

def labelOperands (f : Function) : List Spelling :=
  f.instructions.flatMap fun i => Ir.labelOperands none i.text.toList

def labels (f : Function) : List String := f.blocks.map Block.label

def results (f : Function) : List String := f.instructions.filterMap Instruction.result

/-- The names of label operands, and the names that results mention as they would types. -/
def localNames (f : Function) : List String :=
  f.labelOperands.map (fun w => String.ofList w.name) ++ f.results.flatMap (refNames typeReader)

end CallAtlas.Ir.Function

namespace CallAtlas.Link

open Ir IrModule List

/-- A module whose local names can be followed through joins. Functions stand under their own names,
the names of types are legible, and in the instructions every quote is closed and no reference runs
on into a name character. -/
structure LocallyTidy (m : IrModule) : Prop where
  named : ∀ e ∈ m.functions.entries, e.2.name = e.1
  types : ∀ x ∈ m.types.keys, Legible x.toList
  instructions : ∀ f ∈ m.functions.values, ∀ i ∈ f.instructions, Tidy typeReader i.text.toList

def LabelsResolved (f : Function) : Prop := ∀ w ∈ f.labelOperands, String.ofList w.name ∈ f.labels

instance (f : Function) : Decidable (LabelsResolved f) :=
  inferInstanceAs (Decidable (∀ w ∈ f.labelOperands, String.ofList w.name ∈ f.labels))

/-- The name of a label operand after a change of type names. -/
def newLabel (type : String → String) (w : Spelling) : String :=
  if w.namesType then type (String.ofList w.name) else String.ofList w.name

/-- A result after a change of type names. -/
def newResult (type : String → String) (r : String) : String :=
  renameTypes (fun x => if type x = x then none else some (type x)) r

/-- The function keeps its labels resolved and its results apart. -/
def LocalsKept (p : Passage) (f : Function) : Prop :=
  (LabelsResolved f → LabelsResolved (p.function f)) ∧
    ∀ i ∈ f.instructions, ∀ i' ∈ f.instructions, ∀ r ∈ i.result, ∀ r' ∈ i'.result, r ≠ r' →
      (p.instruction i).result ≠ (p.instruction i').result

/-- The new names of label operands are labels if the old ones are, and different results get
different names. -/
def LocalsApart (p : Passage) (f : Function) : Prop :=
  (LabelsResolved f → ∀ w ∈ f.labelOperands, newLabel p.type w ∈ f.labels) ∧
    ∀ r ∈ f.results, ∀ r' ∈ f.results, r ≠ r' → newResult p.type r ≠ newResult p.type r'

instance (p : Passage) (f : Function) : Decidable (LocalsKept p f) :=
  inferInstanceAs (Decidable (_ ∧ _))

instance (p : Passage) (f : Function) : Decidable (LocalsApart p f) :=
  inferInstanceAs (Decidable (_ ∧ _))

variable {g : Merger} {src : IrModule} {js : List Joined} {p q : Passage}

/-! ## Changes of other references -/

/-- A change of texts that leaves everything behind a `%`. -/
def SparesLocals (t : String → String) : Prop :=
  ∀ text : String, terminated false text.toList →
    ∃ q : Char → Bool, q '%' = false ∧ Edit q text.toList (t text).toList

theorem sparesLocals_renameGlobals {rename : String → Option String}
    (hw : ∀ {x y}, rename x = some y → Writable y.toList) : SparesLocals (renameGlobals rename) :=
  fun _ ht => ⟨_, by decide, renameGlobals_edit hw ht⟩

theorem sparesLocals_shiftNumbered (a b : Int) : SparesLocals (shiftNumbered a b) :=
  fun _ ht => ⟨_, by decide, shiftNumbered_edit a b ht⟩

theorem sparesLocals_local (g : Merger) (src : IrModule) (side : Side) :
    SparesLocals (renameGlobals ((g.localNames src).side side).get?) :=
  sparesLocals_renameGlobals fun h => localNames_writable side h

namespace SparesLocals

variable {t : String → String} {text : String}

theorem tidy (h : SparesLocals t) (ht : Tidy typeReader text.toList) :
    Tidy typeReader (t text).toList := by
  obtain ⟨q, hq, he⟩ := h text ht.terminated
  exact (he.references sigiled_typeReader.sighted (sigiled_typeReader.spared hq)).2.2 ht

theorem labelOperands (h : SparesLocals t) (ht : Tidy typeReader text.toList) :
    labelOperands none (t text).toList = labelOperands none text.toList := by
  obtain ⟨q, hq, he⟩ := h text ht.terminated
  exact he.labelOperands_eq hq none

theorem result (h : SparesLocals t) (ht : Tidy typeReader text.toList) :
    Instruction.result ⟨t text⟩ = Instruction.result ⟨text⟩ := by
  obtain ⟨q, hq, he⟩ := h text ht.terminated
  have hr := he.readResult?_rel hq
  unfold Instruction.result
  generalize readResult? text.toList = o, readResult? (t text).toList = o' at hr
  cases hr with
  | none => rfl
  | some hr => exact congrArg (fun r => some (String.ofList r)) hr.1

end SparesLocals

/-! ## The passages of a run -/

structure RenamesLocals (t : String → String) (type : String → String) : Prop where
  tidy : ∀ {text : String}, Tidy typeReader text.toList → Tidy typeReader (t text).toList
  labelOperands : ∀ {text : String}, Tidy typeReader text.toList →
    (Ir.labelOperands none (t text).toList).map (fun w => String.ofList w.name) =
      (Ir.labelOperands none text.toList).map (newLabel type)
  result : ∀ {text r : String}, Tidy typeReader text.toList → Instruction.result ⟨text⟩ = some r →
    Instruction.result ⟨t text⟩ = some (newResult type r)

namespace RenamesLocals

variable {t u : String → String} {type : String → String}

theorem andThen (ht : RenamesLocals t type) (hu : SparesLocals u) : RenamesLocals (u ∘ t) type where
  tidy h := hu.tidy (ht.tidy h)
  labelOperands h := (congrArg _ (hu.labelOperands (ht.tidy h))).trans (ht.labelOperands h)
  result h hr := (hu.result (ht.tidy h)).trans (ht.result h hr)

theorem after (ht : RenamesLocals t type) (hu : SparesLocals u) : RenamesLocals (t ∘ u) type where
  tidy h := ht.tidy (hu.tidy h)
  labelOperands h := (ht.labelOperands (hu.tidy h)).trans (congrArg _ (hu.labelOperands h))
  result h hr := ht.result (hu.tidy h) ((hu.result h).trans hr)

end RenamesLocals

theorem renamesLocals_renameTypes {mapping : Table String String} (hw : Suffixes mapping.get?) :
    RenamesLocals (renameTypes mapping.get?) (newName mapping) := by
  -- the new names are read off the mapping
  have hget : (fun x => if newName mapping x = x then none else some (newName mapping x)) =
      mapping.get? := by
    funext x
    unfold newName
    cases h : mapping.get? x with
    | none => rw [Option.getD_none, if_pos rfl]
    | some y => rw [Option.getD_some, if_neg (hw.ne h)]
  refine ⟨fun h => ?_, fun h => ?_, fun h hr => ?_⟩
  · exact (renameWith_refNames sigiled_typeReader rfl (fun h => hw.reads h) h).2
  · have hl := congrArg (map String.ofList) (labelOperands_renameTypes hw h none)
    rw [renameTypes, toList_renameWith]
    refine (map_map.symm.trans hl).trans (map_map.trans (map_congr_left fun w _ => ?_))
    unfold newLabel newName
    simp only [Function.comp_apply, Spelling.renamed]
    split_ifs
    · exact String.ofList_toList
    · rfl
  · rw [newResult, hget]
    exact result_renameTypes hw h hr

theorem renamesLocals_arrival (g : Merger) (hs : ∀ x ∈ src.types.keys, Legible x.toList) :
    RenamesLocals (g.arrival src).text (g.arrival src).type := by
  have hw : Suffixes (g.typeNames src).get? := by
    intro x y h
    obtain ⟨hx, n, rfl⟩ := typeNames_numbered h
    exact ⟨suffixed_numbered x n, hs x hx⟩
  have hshift := sparesLocals_shiftNumbered g.dest.nextMetadata g.dest.nextAttributeGroup
  exact ((renamesLocals_renameTypes hw).after hshift).andThen (sparesLocals_local g src .source)

/-- The passages of a run rename labels and results as they rename types. -/
theorem trackAll_renamesLocals {identifier : String} {modules : List IrModule}
    (hl : ∀ m ∈ modules, ∀ x ∈ m.types.keys, Legible x.toList)
    (h : trackAll identifier modules = .ok (g, js)) :
    ∀ j ∈ js, RenamesLocals j.passage.text j.passage.type := by
  refine trackAll_passages (P := fun p => RenamesLocals p.text p.type) ?_ ?_ hl h
  · exact fun g src p _ hp => hp.andThen (sparesLocals_local g src .dest)
  · exact fun g src hs => renamesLocals_arrival g hs

theorem trackAll_functionsTraced {identifier : String} {modules : List IrModule}
    (hl : ∀ m ∈ modules, FunctionsNamed m) (h : trackAll identifier modules = .ok (g, js)) :
    FunctionsTraced js g := by
  exact trackAll_invariant (P := fun g js => FunctionsTraced js g) ⟨nofun,
    nofun⟩ FunctionsTraced.snoc hl h

/-! ## Functions -/

theorem labels_function (p : Passage) (f : Function) : (p.function f).labels = f.labels := by
  simp [Passage.function, Function.mapText, Function.labels]

variable {f : Function}

theorem labelOperands_function (hp : RenamesLocals p.text p.type)
    (hf : ∀ i ∈ f.instructions, Tidy typeReader i.text.toList) :
    (p.function f).labelOperands.map (fun w => String.ofList w.name) =
      f.labelOperands.map (newLabel p.type) := by
  unfold Function.labelOperands
  rw [Passage.instructions_function, flatMap_map, map_flatMap, map_flatMap]
  exact flatMap_congr fun i hi => hp.labelOperands (hf i hi)

theorem labelsResolved_function (hp : RenamesLocals p.text p.type)
    (hf : ∀ i ∈ f.instructions, Tidy typeReader i.text.toList) :
    LabelsResolved (p.function f) ↔ ∀ w ∈ f.labelOperands, newLabel p.type w ∈ f.labels := by
  have hmap := labelOperands_function hp hf
  unfold LabelsResolved
  rw [labels_function, ← forall_mem_map, hmap, forall_mem_map]

theorem localsKept_iff (hp : RenamesLocals p.text p.type)
    (hf : ∀ i ∈ f.instructions, Tidy typeReader i.text.toList) :
    LocalsKept p f ↔ LocalsApart p f := by
  have hresult : ∀ i ∈ f.instructions,
      ∀ r ∈ i.result, (p.instruction i).result = some (newResult p.type r) :=
    fun i hi r hr => hp.result (hf i hi) hr
  refine and_congr (imp_congr_right fun _ => labelsResolved_function hp hf)
    ⟨fun h r hr r' hr' hne => ?_, ?_⟩
  · obtain ⟨i, hi, hir⟩ := mem_filterMap.1 hr
    obtain ⟨i', hi', hir'⟩ := mem_filterMap.1 hr'
    have hd := h i hi i' hi' r hir r' hir' hne
    rw [hresult i hi r hir, hresult i' hi' r' hir'] at hd
    exact fun he => hd (congrArg some he)
  · intro h i hi i' hi' r hr r' hr' hne
    rw [hresult i hi r hr, hresult i' hi' r' hr']
    have hd := h r (mem_filterMap.2 ⟨i, hi, hr⟩) r' (mem_filterMap.2 ⟨i', hi', hr'⟩) hne
    exact fun he => hd (Option.some.inj he)

theorem localsApart_of_unmoved (h : ∀ x ∈ f.localNames, p.type x = x) : LocalsApart p f := by
  have hlabel : ∀ w ∈ f.labelOperands, newLabel p.type w = String.ofList w.name := by
    intro w hw
    unfold newLabel
    rw [h _ (mem_append_left _ (mem_map_of_mem hw)), ite_self]
  have hresult : ∀ r ∈ f.results, newResult p.type r = r := by
    intro r hr
    unfold newResult renameTypes
    refine renameWith_absent fun x hx => ?_
    rw [if_pos (h x (mem_append_right _ (mem_flatMap.2 ⟨r, hr, hx⟩)))]
  refine ⟨fun hl w hw => ?_, fun r hr r' hr' hne => ?_⟩
  · rw [hlabel w hw]
    exact hl w hw
  · rwa [hresult r hr, hresult r' hr']

/-- **Labels and results.** A function of a module keeps its labels resolved and its results apart
exactly if the new names of its label operands are labels and its results have different new names.
It does so if it uses no name of a renamed type. -/
theorem locals_kept_iff {identifier : String} {modules : List IrModule}
    (hl : ∀ m ∈ modules, LocallyTidy m) (h : mergeAll identifier modules = .ok g) :
    ∃ js, trackAll identifier modules = .ok (g, js) ∧ js.map Joined.source = modules ∧
      (∀ y f', g.dest.functions.get? y = some f' →
        ∃ j ∈ js, ∃ x f, j.source.functions.get? x = some f ∧
        j.passage.name x = y ∧ j.passage.function f = f') ∧
      ∀ j ∈ js, ∀ x f, j.source.functions.get? x = some f →
        (LocalsKept j.passage f ↔ LocalsApart j.passage f) ∧
          ((∀ z ∈ f.localNames, j.passage.type z = z) → LocalsKept j.passage f) := by
  obtain ⟨js, ht⟩ := exists_trackAll h
  have hsrc := sources_trackAll ht
  have hs : ∀ j ∈ js, LocallyTidy j.source := fun j hj => hl _ (hsrc ▸ mem_map_of_mem hj)
  have hnamed : ∀ {m}, LocallyTidy m → FunctionsNamed m :=
    fun hm _ _ hf => hm.named _ (Table.get?_eq_some.1 hf)
  have htr := trackAll_functionsTraced (fun m hm => hnamed (hl m hm)) ht
  have hren := trackAll_renamesLocals (fun m hm => (hl m hm).types) ht
  refine ⟨js, ht, hsrc, ?_, ?_⟩
  · intro y f' hf
    obtain ⟨j, hj, x, f, hx, rfl⟩ := htr.function hf
    refine ⟨j, hj, x, f, hx, ?_, rfl⟩
    rw [← hnamed (hs j hj) hx]
    exact htr.named hf
  · intro j hj x f hx
    have hiff := localsKept_iff (hren j hj)
      ((hs j hj).instructions f (Table.mem_values.2 ⟨_, hx⟩))
    exact ⟨hiff, fun h => hiff.2 (localsApart_of_unmoved h)⟩

/-- Two modules with different types of one name. The function of the second uses its type beside
labels and results of other names. -/
def sampleLocals : List IrModule :=
  [{ types := .ofList [("x", "\x7b i32 \x7d")] },
   { types := .ofList [("x", "\x7b i64 \x7d")]
     functions := .ofList [("f", ⟨"f", "define void @f(i1 %c)",
       [⟨"entry", [⟨"  %p = alloca %x"⟩, ⟨"  %q = alloca %\"x\""⟩,
         ⟨"  br i1 %c, label %\"a b\", label %7"⟩], none⟩,
        ⟨"a b", [⟨"  ret void"⟩], some "\"a b\":"⟩, ⟨"7", [⟨"  ret void"⟩], some "7:"⟩]⟩)] }]

set_option maxRecDepth 100000 in
theorem sampleLocals_kept : (∀ m ∈ sampleLocals, LocallyTidy m) ∧
    ∃ g js, mergeAll "out" sampleLocals = .ok g ∧ trackAll "out" sampleLocals = .ok (g, js) ∧
      js.map Joined.source = sampleLocals ∧
      ∀ j ∈ js, ∀ f, j.source.functions.get? "f" = some f → LocalsKept j.passage f := by
  have hl : ∀ m ∈ sampleLocals, LocallyTidy m := by
    have hnamed : ∀ m ∈ sampleLocals, ∀ e ∈ m.functions.entries, e.2.name = e.1 := by decide +kernel
    have htypes : ∀ m ∈ sampleLocals, ∀ x ∈ m.types.keys, Legible x.toList := by
      unfold Legible
      decide +kernel
    have hinstructions : ∀ m ∈ sampleLocals, ∀ f ∈ m.functions.values, ∀ i ∈ f.instructions,
        Tidy typeReader i.text.toList := by decide +kernel
    exact fun m hm => ⟨hnamed m hm, htypes m hm, hinstructions m hm⟩
  have hunmoved : (trackAll "out" sampleLocals).toOption.map (fun r => decide (∀ j ∈ r.2,
      ∀ f ∈ j.source.functions.values, ∀ z ∈ f.localNames, j.passage.type z = z)) = some true := by
        decide +kernel
  obtain ⟨g, hg⟩ := exists_eq_ok (x := mergeAll "out" sampleLocals) (by decide +kernel)
  obtain ⟨js, ht, hsrc, -, hs⟩ := locals_kept_iff hl hg
  rw [ht] at hunmoved
  have hz := of_decide_eq_true (Option.some.inj hunmoved)
  exact ⟨hl, g, js, hg, ht, hsrc, fun j hj f hf =>
    (hs j hj "f" f hf).2 (hz j hj f (mem_map.2 ⟨_, Table.get?_eq_some.1 hf, rfl⟩))⟩

/-! ## Local names that are lost -/

/-- The functions that the destination holds and that do not keep their local names; with each,
whether its local names are apart. -/
def lostLocals (g : Merger) (js : List Joined) : List (String × Bool) :=
  js.flatMap fun j => (j.source.functions.values.filter fun f =>
    g.dest.functions.get? (j.passage.name f.name) = some (j.passage.function f) &&
    !decide (LocalsKept j.passage f)).map
      fun f => (f.name, decide (LocalsApart j.passage f))

def LoseLocals (ms : List IrModule) (apart : Bool) : Prop :=
  (trackAll "out" ms).toOption.map (fun r => lostLocals r.1 r.2) = some [("f", apart)]

/-- A label operand has the name of a renamed type, and its block keeps that name. -/
def renamedLabel : List IrModule :=
  [{ types := .ofList [("x", "\x7b i32 \x7d")] },
   { types := .ofList [("x", "\x7b i64 \x7d")]
     functions := .ofList [("f", ⟨"f", "define void @f(i1 %c)",
       [⟨"entry", [⟨"  br i1 %c, label %x, label %y"⟩], none⟩, ⟨"x", [⟨"  ret void"⟩], some "x:"⟩,
        ⟨"y", [⟨"  ret void"⟩], some "y:"⟩]⟩)] }]

/-- A result has the name of a renamed type, and the new name is that of another result. -/
def takenResult : List IrModule :=
  [{ types := .ofList [("x", "\x7b i32 \x7d")] },
   { types := .ofList [("x", "\x7b i64 \x7d")]
     functions := .ofList [("f", ⟨"f", "define void @f()",
       [⟨"entry", [⟨"  %x = add i32 1, 2"⟩, ⟨"  %x.1 = add i32 3, 4"⟩, ⟨"  ret void"⟩], none⟩]⟩)] }]

/-- A quoted operand runs on into a name character. -/
def runOnLabel : List IrModule :=
  [{ types := .ofList [("x", "\x7b i32 \x7d")] },
   { types := .ofList [("x", "\x7b i64 \x7d")]
     functions := .ofList [("f", ⟨"f", "define void @f()",
       [⟨"entry", [⟨"  br label %\"x\"y"⟩], none⟩, ⟨"x", [⟨"  ret void"⟩], some "x:"⟩,
        ⟨"x.1", [⟨"  ret void"⟩], some "x.1:"⟩]⟩)] }]

/-- The name of a renamed type holds a character whose escape has more than two digits. -/
def illegibleLabel : List IrModule :=
  [{ types := .ofList [("x\u200B", "\x7b i32 \x7d")] },
   { types := .ofList [("x\u200B", "\x7b i64 \x7d")]
     functions := .ofList [("f", ⟨"f", "define void @f()",
       [⟨"entry", [⟨"  br label %\"x\u200B\""⟩], none⟩,
         ⟨"x\u200B", [⟨"  ret void"⟩], some "\"x\u200B\":"⟩,
        ⟨"x\u200B.1", [⟨"  ret void"⟩], some "\"x\u200B.1\":"⟩]⟩)] }]

set_option maxRecDepth 100000 in
/-- Labels and results are not kept in general: the first two functions use the name of a renamed
type, and each of the others breaks one of the conditions on texts and names. -/
theorem locals_lost :
    LoseLocals renamedLabel false ∧ LoseLocals takenResult false ∧ LoseLocals runOnLabel true ∧
    LoseLocals illegibleLabel true := by
  refine ⟨?_, ?_, ?_, ?_⟩ <;> unfold LoseLocals <;> decide +kernel

end CallAtlas.Link
