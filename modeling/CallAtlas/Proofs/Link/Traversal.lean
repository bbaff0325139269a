import CallAtlas.Proofs.Link.Journey

/-!
# The order of shared names

Local symbols with a shared name get new names one after the other, and each gets the name that it
would get alone, `get?_localRenaming`. So joins that go through the shared names in different orders
end alike: `mergeBy_alike`.
-/

namespace CallAtlas.Link

open Ir IrModule List

variable {src : IrModule}

/-! ## Tables with one view -/

theorem renameSymbols_congr (m : IrModule) {mapping mapping' : Table String String}
    (h : ∀ x, mapping.get? x = mapping'.get? x) :
    m.renameSymbols mapping = m.renameSymbols mapping' := by
  have hg : mapping.get? = mapping'.get? := funext h
  have he : mapping.isEmpty = mapping'.isEmpty := by
    rw [Bool.eq_iff_iff, Table.isEmpty_iff, Table.isEmpty_iff, hg]
  unfold renameSymbols
  rw [he, hg]

/-- One entry moved to its new name, as the view shows it. -/
def moveKey (view : String → Option String) (e : String × String) : String → Option String :=
  match view e.1 with
  | some v => fun y => if e.2 = y then some v else if e.1 = y then none else view y
  | none => view

theorem get?_renameKeys_foldl (t mapping : Table String String) :
    (renameKeys t mapping).get? = mapping.entries.foldl moveKey t.get? := by
  refine (foldl_hom Table.get? fun t e => ?_).symm
  unfold moveKey
  cases t.get? e.1 with
  | none => rfl
  | some v =>
    funext y
    simp only [Table.get?_insert, Table.get?_erase]

/-- Moves between four names do not touch each other. -/
theorem moveKey_comm (view : String → Option String) {e e' : String × String} (h1 : e.1 ≠ e'.1)
    (h2 : e.2 ≠ e'.2)
    (h12 : e.1 ≠ e'.2) (h21 : e'.1 ≠ e.2) :
    moveKey (moveKey view e) e' = moveKey (moveKey view e') e := by
  have hother : moveKey view e e'.1 = view e'.1 := by
    unfold moveKey
    cases view e.1 <;> simp [h1, h21.symm]
  have hother' : moveKey view e' e.1 = view e.1 := by
    unfold moveKey
    cases view e'.1 <;> simp [h1.symm, h12.symm]
  rw [moveKey, hother, moveKey.eq_1 (moveKey view e'), hother']
  funext y
  cases hv : view e.1 <;> cases hv' : view e'.1 <;> simp only [moveKey, hv, hv']
  split_ifs <;> simp_all

theorem perm_entries {t t' : Table String String} (h : ∀ x, t.get? x = t'.get? x) :
    t.entries.Perm t'.entries := by
  refine (perm_ext_iff_of_nodup (.of_map _ t.distinct) (.of_map _ t'.distinct)).2 fun e => ?_
  rw [← Table.get?_eq_some, h, Table.get?_eq_some]

theorem get?_renameKeys_congr {t t' mapping mapping' : Table String String}
    (ht : ∀ x, t.get? x = t'.get? x) (hm : ∀ x, mapping.get? x = mapping'.get? x)
    (hnew : ∀ e ∈ mapping.entries, ∀ e' ∈ mapping.entries, e.1 ≠ e'.2 ∧ (e.2 = e'.2 → e.1 = e'.1))
    (y : String) :
    (renameKeys t mapping).get? y = (renameKeys t' mapping').get? y := by
  rw [get?_renameKeys_foldl, get?_renameKeys_foldl, ← funext ht]
  refine congrFun ((perm_entries hm).foldl_eq' (fun e he e' he' view => ?_) _) y
  by_cases h1 : e.1 = e'.1
  · have h2 : e.2 = e'.2 := by
      have hg := Table.get?_eq_some.2 he
      rw [h1, Table.get?_eq_some.2 he'] at hg
      exact (Option.some.inj hg).symm
    rw [Prod.ext h1 h2]
  · exact moveKey_comm view h1 (fun h2 => h1 ((hnew e he e' he').2 h2)) (hnew e he e' he').1
      (hnew e' he' e he).1

/-! ## Joins -/

/-- In which order the shared names are gone through. -/
abbrev Traversal := IrModule → IrModule → List String

def Traversal.Fair (order : Traversal) : Prop :=
  ∀ dest src, (order dest src).Perm (sharedNames dest src)

/-- Local symbols go out of the way, the shared names being gone through in a given order. -/
def Merger.renameLocalsBy (order : Traversal) (g : Merger) (src : IrModule) : Merger × IrModule :=
  let r := localRenaming g.dest src (order g.dest src)
  ({ g with dest := g.dest.renameSymbols r.dest, definer := renameKeys g.definer r.dest },
    src.renameSymbols r.source)

/-- The end of a join, with both sides under their new names. -/
def joinRenamed (metadataOffset attributeOffset : Nat) (sides : Merger × IrModule) :
    Except Broken Merger := do
  let g ← (symbolsInOrder sides.2).foldlM (Merger.mergeSymbol sides.2.identifier) sides.1
  pure { g with
    dest := mergeRest g.dest sides.2 metadataOffset attributeOffset
    merged := g.merged + 1 }

/-- A join behind the check of its header lines, with a given order of the shared names. -/
def Merger.joinBy (order : Traversal) (g : Merger) (src : IrModule) : Except Broken Merger :=
  let typed := g.unifyTypes (g.shifted src)
  joinRenamed g.dest.nextMetadata g.dest.nextAttributeGroup (typed.1.renameLocalsBy order typed.2)

def Merger.mergeBy (order : Traversal) (g : Merger) (src : IrModule) : Except Broken Merger := do
  let g ← g.checkTarget src
  Merger.joinBy order (if g.merged = 0 then { g with dest.sourceFilename := src.sourceFilename }
    else g) src

/-- Two states that no question tells apart: the destination is the same, and so is each symbol's
definer. -/
structure Merger.Alike (g g' : Merger) : Prop where
  dest : g.dest = g'.dest
  definer : ∀ x, g.definer.get? x = g'.definer.get? x
  merged : g.merged = g'.merged

/-- Two outcomes of a join that are alike: failures are the same and leave states that are alike. -/
def SameOutcome : Except Broken Merger → Except Broken Merger → Prop
  | .ok g, .ok g' => g.Alike g'
  | .error b, .error b' => b.error = b'.error ∧ b.left.Alike b'.left
  | _, _ => False

variable {g g' : Merger} {order order' : Traversal}

theorem SameOutcome.bind {a a' : Except Broken Merger} {f f' : Merger → Except Broken Merger}
    (h : SameOutcome a a')
    (hf : ∀ {g g'}, g.Alike g' → SameOutcome (f g) (f' g')) :
    SameOutcome (a >>= f) (a' >>= f') := by
  cases a <;> cases a'
  · exact h
  · cases h
  · cases h
  · exact hf h

theorem checkTarget_alike (h : g.Alike g') :
    SameOutcome (g.checkTarget src) (g'.checkTarget src) := by
  unfold Merger.checkTarget
  simp only [h.dest]
  cases agree g'.dest.targetTriple src.targetTriple with
  | none => exact ⟨rfl, h⟩
  | some triple =>
    cases agree g'.dest.dataLayout src.dataLayout with
    | none => exact ⟨rfl, rfl, h.definer, h.merged⟩
    | some layout => exact ⟨rfl, h.definer, h.merged⟩

theorem place_alike (h : g.Alike g') (origin : String) (sym : Symbol) :
    (g.place origin sym).Alike (g'.place origin sym) := by
  unfold Merger.place
  rw [h.dest]
  split_ifs
  · exact ⟨rfl, h.definer, h.merged⟩
  · refine ⟨rfl, fun x => ?_, h.merged⟩
    simp only [Table.get?_insert, h.definer]

theorem mergeSymbol_alike (h : g.Alike g') (origin : String) (sym : Symbol) :
    SameOutcome (g.mergeSymbol origin sym) (g'.mergeSymbol origin sym) := by
  rw [mergeSymbol_eq, mergeSymbol_eq, h.dest]
  cases verdict (g'.dest.symbol? sym.name) sym with
  | keep => exact h
  | take => exact place_alike h origin sym
  | concat a b =>
    cases hj : joinArrays a.segment b.segment sym.name with
    | error e => simpa only [hj] using ⟨rfl, h⟩
    | ok segment => simpa only [hj] using ⟨rfl, h.definer, h.merged⟩
  | clash => exact ⟨by rw [h.definer], h⟩

theorem mergeSymbols_alike (h : g.Alike g') (origin : String) (syms : List Symbol) :
    SameOutcome (syms.foldlM (Merger.mergeSymbol origin) g)
      (syms.foldlM (Merger.mergeSymbol origin) g') := by
  induction syms generalizing g g' with
  | nil => exact h
  | cons sym syms ih =>
    exact (mergeSymbol_alike h origin sym).bind ih

theorem Traversal.Fair.get?_localRenaming (ho : order.Fair) (dest src : IrModule) (s : Side)
    (x : String) :
    ((localRenaming dest src (order dest src)).side s).get? x =
      if x ∈ sharedNames dest src ∧ yielder dest src x = some s
        then some (fresh x (dest.symbolNames ++ src.symbolNames)) else none := by
  have hp := ho dest src
  simp only [Link.get?_localRenaming (hp.nodup_iff.2 (nodup_sharedNames dest src)), hp.mem_iff]

theorem renameLocalsBy_alike (ho : order.Fair) (ho' : order'.Fair) (h : g.Alike g')
    (src : IrModule) :
    (g.renameLocalsBy order src).1.Alike (g'.renameLocalsBy order' src).1 ∧
      (g.renameLocalsBy order src).2 = (g'.renameLocalsBy order' src).2 := by
  have hsame : ∀ s x, ((localRenaming g.dest src (order g.dest src)).side s).get? x =
      ((localRenaming g'.dest src (order' g'.dest src)).side s).get? x := by
    intro s x
    rw [ho.get?_localRenaming, ho'.get?_localRenaming, h.dest]
  have hsound :=
    localRenaming_sound g.dest src ((ho g.dest src).nodup_iff.2 (nodup_sharedNames g.dest src))
  refine ⟨⟨?_, ?_, h.merged⟩, renameSymbols_congr src (hsame .source)⟩
  · show g.dest.renameSymbols _ = g'.dest.renameSymbols _
    rw [h.dest]
    exact renameSymbols_congr _ fun x => h.dest ▸ hsame .dest x
  · refine get?_renameKeys_congr h.definer (hsame .dest) fun e he e' he' => ?_
    -- old names are names of symbols, new ones are not
    obtain ⟨hold, -⟩ := hsound.only (s := .dest) (Table.get?_eq_some.2 he)
    obtain ⟨-, -, hnew, -⟩ := hsound.only (s := .dest) (Table.get?_eq_some.2 he')
    have hknown : e.1 ∈ src.symbolNames := (mem_filter.1 ((ho g.dest src).mem_iff.1 hold)).1
    refine ⟨fun heq => hnew (heq ▸ mem_append_right _ hknown), fun heq => ?_⟩
    have hg : (LocalRenaming.side _ .dest).get? e'.1 = _ := Table.get?_eq_some.2 he'
    rw [← heq] at hg
    exact (hsound.inj (s := .dest) (Table.get?_eq_some.2 he) hg).2

theorem joinRenamed_alike {metadataOffset attributeOffset : Nat} {sides sides' : Merger × IrModule}
    (h : sides.1.Alike sides'.1) (hs : sides.2 = sides'.2) :
    SameOutcome (joinRenamed metadataOffset attributeOffset sides)
      (joinRenamed metadataOffset attributeOffset sides') := by
  unfold joinRenamed
  rw [hs]
  exact (mergeSymbols_alike h _ _).bind fun h =>
    ⟨by rw [h.dest], h.definer, congrArg (· + 1) h.merged⟩

theorem unifyTypes_alike (h : g.Alike g') (src : IrModule) :
    (g.unifyTypes src).1.Alike (g'.unifyTypes src).1 ∧
    (g.unifyTypes src).2 = (g'.unifyTypes src).2 := by
  unfold Merger.unifyTypes
  rw [h.dest]
  exact ⟨⟨rfl, h.definer, h.merged⟩, rfl⟩

theorem joinBy_alike (ho : order.Fair) (ho' : order'.Fair) (h : g.Alike g') (src : IrModule) :
    SameOutcome (g.joinBy order src) (g'.joinBy order' src) := by
  have hshifted : g.shifted src = g'.shifted src := by rw [Merger.shifted, Merger.shifted, h.dest]
  obtain ⟨htypes, hsrc⟩ := unifyTypes_alike h (g'.shifted src)
  obtain ⟨hleft, hright⟩ := renameLocalsBy_alike ho ho' htypes (g'.unifyTypes (g'.shifted src)).2
  simp only [Merger.joinBy, h.dest, hshifted, hsrc]
  exact joinRenamed_alike hleft hright

theorem mergeBy_alike (ho : order.Fair) (ho' : order'.Fair) (h : g.Alike g') (src : IrModule) :
    SameOutcome (g.mergeBy order src) (g'.mergeBy order' src) := by
  refine (checkTarget_alike h).bind fun {g g'} h => joinBy_alike ho ho' ?_ src
  by_cases h0 : g.merged = 0
  · rw [if_pos h0, if_pos (h.merged ▸ h0)]
    exact ⟨by rw [h.dest], h.definer, h.merged⟩
  · rw [if_neg h0, if_neg (h.merged ▸ h0)]
    exact h

/-- Joins one after the other, each with an order of its own. -/
def mergeAllBy (identifier : String) (steps : List (Traversal × IrModule)) : Except Broken Merger :=
  steps.foldlM (fun g step => g.mergeBy step.1 step.2) (.empty identifier)

theorem mergeSteps_alike {steps : List (Traversal × IrModule)} (ho : ∀ step ∈ steps, step.1.Fair)
    (h : g.Alike g') :
    SameOutcome (steps.foldlM (fun g step => g.mergeBy step.1 step.2) g)
      ((steps.map Prod.snd).foldlM Merger.merge g') := by
  induction steps generalizing g g' with
  | nil => exact h
  | cons step steps ih =>
    obtain ⟨hstep, ho⟩ := forall_mem_cons.1 ho
    exact (mergeBy_alike hstep (fun _ _ => .refl _) h step.2).bind (ih ho)

/-- **No order shows.** Whatever the order in which the shared names are gone through: on both sides
exactly the local symbols with a shared name get new names, and each gets the name that it would get
alone. So a join, and a sequence of joins with an order for each, ends as it does in the order of
the incoming module: with the same destination, hence the same text, and the same definer of each
symbol, or with the same failure. -/
theorem traversal_unseen (ho : order.Fair) :
    (∀ dest src s x, ((localRenaming dest src (order dest src)).side s).get? x =
      if x ∈ sharedNames dest src ∧ yielder dest src x = some s
        then some (fresh x (dest.symbolNames ++ src.symbolNames)) else none) ∧
      (∀ g src, SameOutcome (Merger.mergeBy order g src) (g.merge src)) ∧
      ∀ identifier steps, (∀ step ∈ steps, step.1.Fair) →
        SameOutcome (mergeAllBy identifier steps) (mergeAll identifier (steps.map Prod.snd)) := by
  have hfirst : Traversal.Fair sharedNames := fun _ _ => .refl _
  refine ⟨ho.get?_localRenaming, fun g src => ?_, fun identifier steps hsteps => ?_⟩
  · exact mergeBy_alike ho hfirst ⟨rfl, fun _ => rfl, rfl⟩ src
  · exact mergeSteps_alike hsteps ⟨rfl, fun _ => rfl, rfl⟩

/-- The shared names from the last to the first. -/
def backwards : Traversal := fun dest src => (sharedNames dest src).reverse

/-- Two modules with variables `a` and `a.1`, of which only the last one is visible. -/
def sampleDotted : IrModule × IrModule :=
  ({ globals := .ofList [("a", ⟨"a", "internal global i32 1"⟩),
    ("a.1", ⟨"a.1", "internal global ptr @a"⟩)] },
   { globals := .ofList [("a", ⟨"a", "internal global i32 2"⟩),
     ("a.1", ⟨"a.1", "global ptr @a"⟩)] })

set_option maxRecDepth 100000 in
theorem backwards_unseen :
    backwards.Fair ∧ sharedNames sampleDotted.1 sampleDotted.2 = ["a", "a.1"] ∧
    ((localRenaming sampleDotted.1 sampleDotted.2 ["a.1", "a"]).side .source).get? "a" =
      some "a.2" ∧
    ((localRenaming sampleDotted.1 sampleDotted.2 ["a.1", "a"]).side .dest).get? "a.1" =
      some "a.1.1" ∧ (mergeAll "out" [sampleDotted.1, sampleDotted.2]).isOk = true ∧
    SameOutcome (mergeAllBy "out" [(backwards, sampleDotted.1), (backwards, sampleDotted.2)])
      (mergeAll "out" [sampleDotted.1, sampleDotted.2]) := by
  have hfair : backwards.Fair := fun dest src => reverse_perm _
  have hshared : sharedNames sampleDotted.1 sampleDotted.2 = ["a", "a.1"] := by decide +kernel
  obtain ⟨hnames, -, hruns⟩ := traversal_unseen hfair
  refine ⟨hfair, hshared, ?_, ?_, by decide +kernel,
    hruns "out" [(backwards, _), (backwards, _)] ?_⟩
  · exact (hnames _ _ .source "a").trans (by decide +kernel)
  · exact (hnames _ _ .dest "a.1").trans (by decide +kernel)
  · simp [hfair]

end CallAtlas.Link
