import CallAtlas.Proofs.Optimize.Liveness

/-!
# What a pipeline keeps

A pass changes linkages and removes symbols; the bodies that it leaves are those that were there, in
their order, and it leaves the metadata alone. That is `Trims`, and every run of passes does no
more, `runPasses_trims`.

A module is `Verified` if it has every symbol that its symbols mention and every node that its
instructions are attached to; verification finds nothing wrong with such a module and with no other,
`verifyProblems_eq_nil`. No pass removes a symbol that a symbol it leaves mentions, so a verified
module stays verified: `Pipeline.run_stays_verified`.
-/

namespace CallAtlas.Optimize

open Ir List

variable {m m' m'' : IrModule} {preserve : List String} {n k : String} {s : Symbol} {p : Pass}
  {ps : List Pass}

/-! ## What a pass changes -/

/-- The function of the first entry is that of the second up to its header, and no less a
definition. -/
structure SameBody (e' e : String × Function) : Prop where
  key : e'.1 = e.1
  name : e'.2.name = e.2.name
  blocks : e'.2.blocks = e.2.blocks
  isDeclaration : e'.2.isDeclaration = e.2.isDeclaration

instance : Std.Refl SameBody := ⟨fun _ => ⟨rfl, rfl, rfl, rfl⟩⟩

instance : IsTrans (String × Function) SameBody :=
  ⟨fun _ _ _ h h' => ⟨h.1.trans h'.1, h.2.trans h'.2, h.3.trans h'.3, h.4.trans h'.4⟩⟩

/-- The second module has the metadata of the first and some of its functions with the bodies they
had, in order. -/
structure Trims (m m' : IrModule) : Prop where
  metadata : m'.metadata = m.metadata
  functions : List.SublistForall₂ SameBody m'.functions.entries m.functions.entries

theorem Trims.refl (m : IrModule) : Trims m m := ⟨rfl, Std.Refl.refl _⟩

theorem Trims.trans (h : Trims m m') (h' : Trims m' m'') : Trims m m'' :=
  ⟨h'.metadata.trans h.metadata, IsTrans.trans _ _ _ h'.functions h.functions⟩

theorem Trims.of_sublist (hd : m'.metadata = m.metadata)
    (hf : m'.functions.entries.Sublist m.functions.entries) :
    Trims m m' :=
  ⟨hd, sublistForall₂_iff.2 ⟨_, forall₂_refl _, hf⟩⟩

theorem Trims.exists_body (h : Trims m m') {e' : String × Function}
    (he : e' ∈ m'.functions.entries) :
    ∃ e ∈ m.functions.entries, SameBody e' e := by
  obtain ⟨l, hl, hsub⟩ := sublistForall₂_iff.1 h.functions
  obtain ⟨i, hi, rfl⟩ := getElem_of_mem he
  have hlen := hl.length_eq
  exact ⟨l[i], hsub.subset (getElem_mem _), hl.get hi (hlen ▸ hi)⟩

theorem trims_internalize (m : IrModule) (preserve : List String) :
    Trims m (internalize m preserve).1 := by
  refine ⟨rfl, sublistForall₂_iff.2 ⟨_, ?_, Sublist.refl _⟩⟩
  show Forall₂ SameBody (m.functions.entries.map fun e => (e.1, internalizeFunction preserve e.2)) _
  rw [forall₂_map_left_iff, forall₂_same]
  intro e _
  have hd : (localized preserve (.function e.2)).isDeclaration = e.2.isDeclaration :=
    isDeclaration_localized _
  unfold localized at hd
  unfold internalizeFunction
  split_ifs at hd ⊢ with hb
  · exact ⟨rfl, rfl, rfl, hd⟩
  · exact ⟨rfl, rfl, rfl, rfl⟩

theorem trims_globalDce (m : IrModule) (preserve : List String) :
    Trims m (globalDce m preserve).1 :=
  .of_sublist rfl filter_sublist

theorem trims_stripDeadPrototypes (m : IrModule) (preserve : List String) :
    Trims m (stripDeadPrototypes m preserve).1 :=
  .of_sublist rfl filter_sublist

theorem run_verify_ok {c : Nat} (h : Pass.verify.run m preserve = .ok (m', c)) : m' = m := by
  unfold Pass.run at h
  cases hv : verifyProblems m with
  | nil => simp_all
  | cons a r => simp [hv] at h

theorem Pass.run_trims {c : Nat} (h : p.run m preserve = .ok (m', c)) : Trims m m' := by
  cases p with
  | internalize =>
    cases h
    exact trims_internalize m preserve
  | globalDce =>
    cases h
    exact trims_globalDce m preserve
  | stripDeadPrototypes =>
    cases h
    exact trims_stripDeadPrototypes m preserve
  | verify => exact run_verify_ok h ▸ .refl m

theorem runPasses_trims (h : Pipeline.runPasses preserve ps m = (m', none)) : Trims m m' := by
  induction ps generalizing m with
  | nil =>
    cases h
    exact .refl _
  | cons p ps ih =>
    unfold Pipeline.runPasses at h
    cases hp : p.run m preserve with
    | error complaint => simp [hp] at h
    | ok r =>
      rw [hp] at h
      exact (Pass.run_trims hp).trans (ih h)

/-! ## Verification -/

/-- The module has what its symbols mention and, if it has metadata, what its instructions are
attached to. -/
structure Verified (m : IrModule) : Prop where
  references : ∀ n ∈ m.symbolNames, ∀ k ∈ m.referencesOf n, k ∈ m.symbolNames
  attachments : m.metadata.isEmpty = false →
    ∀ f ∈ m.functions.values, ∀ i ∈ f.instructions, ∀ d, i.debug = some d → d ∈ m.metadata.keys

theorem missingReferences_eq_nil :
    missingReferences m n = [] ↔ ∀ k ∈ m.referencesOf n, k ∈ m.symbolNames := by
  unfold missingReferences
  rw [← length_eq_zero_iff]
  simp [IrModule.mem_symbolNames, Option.isSome_iff_ne_none]

theorem missingDebug?_eq_none {f : Function} :
    missingDebug? m f = none ↔ ∀ i ∈ f.instructions, ∀ d, i.debug = some d →
    d ∈ m.metadata.keys := by
  unfold missingDebug?
  simp only [find?_eq_none, Bool.not_eq_true', Bool.not_eq_false, Table.contains_eq_true]
  grind

theorem verifyProblems_eq_nil : verifyProblems m = [] ↔ Verified m := by
  unfold verifyProblems
  rw [append_eq_nil_iff, filterMap_eq_nil_iff]
  simp only [mem_mergeSort]
  constructor
  · rintro ⟨hr, hd⟩
    refine ⟨fun n hn => missingReferences_eq_nil.1 ?_, fun he => ?_⟩
    · have hnone := hr n hn
      split at hnone
      · assumption
      · cases hnone
    · rw [he, if_neg Bool.false_ne_true, filterMap_eq_nil_iff] at hd
      exact fun f hf => missingDebug?_eq_none.1 (Option.map_eq_none_iff.1 (hd f hf))
  · intro h
    refine ⟨fun n hn => by rw [missingReferences_eq_nil.2 (h.references n hn)], ?_⟩
    cases he : m.metadata.isEmpty with
    | true => rfl
    | false =>
      rw [if_neg Bool.false_ne_true, filterMap_eq_nil_iff]
      exact fun f hf => Option.map_eq_none_iff.2 (missingDebug?_eq_none.2 (h.attachments he f hf))

instance (m : IrModule) : Decidable (Verified m) :=
  decidable_of_iff ((∀ n ∈ m.symbolNames, ∀ k ∈ m.referencesOf n, k ∈ m.symbolNames) ∧
      (m.metadata.isEmpty = false → ∀ f ∈ m.functions.values, missingDebug? m f = none))
    ⟨fun h => ⟨h.1, fun he f hf => missingDebug?_eq_none.1 (h.2 he f hf)⟩,
      fun h => ⟨h.1, fun he f hf => missingDebug?_eq_none.2 (h.2 he f hf)⟩⟩

theorem run_verify_of_verified (hv : Verified m) : Pass.verify.run m preserve = .ok (m, 0) := by
  unfold Pass.run
  rw [verifyProblems_eq_nil.2 hv]

theorem Verified.of_trims (hv : Verified m) (ht : Trims m m')
    (hr : ∀ n ∈ m'.symbolNames, ∀ k ∈ m'.referencesOf n, k ∈ m'.symbolNames) : Verified m' := by
  refine ⟨hr, fun hd f' hf' i hi d => ?_⟩
  rw [ht.metadata] at hd ⊢
  obtain ⟨e', he', rfl⟩ := mem_map.1 hf'
  obtain ⟨e, he, hbody⟩ := ht.exists_body he'
  refine hv.attachments hd e.2 (mem_map_of_mem he) i ?_ d
  unfold Function.instructions at hi ⊢
  rwa [← hbody.blocks]

/-! ## Passes that remove symbols -/

/-- Removing symbols of a verified module leaves one if what a symbol that stays mentions stays
too. -/
theorem Verified.of_holds (hv : Verified m) (hm : m.WellNamed) (ht : Trims m m')
    (h : ∀ {n s}, m'.Holds n s → m.Holds n s)
    (hclosed : ∀ {n k}, n ∈ m.symbolNames → n ∈ m'.symbolNames → k ∈ m.referencesOf n →
      k ∈ m.symbolNames → k ∈ m'.symbolNames) : Verified m' := by
  refine hv.of_trims ht fun n hn k hk => ?_
  obtain ⟨s, hs⟩ := Option.isSome_iff_exists.1 (IrModule.mem_symbolNames.1 hn)
  have hs' := hm.keyed.symbol?_iff.2 (h (IrModule.holds_of_symbol? hs))
  have hk' : k ∈ m.referencesOf n := by
    unfold IrModule.referencesOf at hk ⊢
    rwa [hs', ← hs]
  have hn' := IrModule.mem_symbolNames_of_symbol? hs'
  exact hclosed hn' hn hk' (hv.references n hn' k hk')

theorem holds_globalDce (hs : (globalDce m preserve).1.Holds n s) : m.Holds n s := by
  cases s with
  | function f => exact (Table.get?_filter_eq_some.1 hs).1
  | global g => exact (Table.get?_filter_eq_some.1 hs).1

theorem verified_globalDce (hm : m.WellNamed) (hv : Verified m) :
    Verified (globalDce m preserve).1 := by
  refine hv.of_holds hm (trims_globalDce m preserve) holds_globalDce fun _ hn hk hmem => ?_
  rw [mem_symbolNames_globalDce] at hn ⊢
  exact Graph.mem_reachable.2 (.step (Graph.mem_reachable.1 hn) (mem_keepsAlive.2 (.inl hk)) hmem)

/-- A declaration that is removed because no symbol mentions it. -/
def isDeadPrototype (m : IrModule) (preserve : List String) (f : Function) : Bool :=
  f.isDeclaration && !(m.symbolNames.flatMap m.referencesOf).contains f.name &&
    !preserve.contains f.name

theorem isDeadPrototype_of_mentioned {f : Function}
    (h : f.name ∈ m.symbolNames.flatMap m.referencesOf) :
    isDeadPrototype m preserve f = false := by
  rw [isDeadPrototype, contains_iff_mem.2 h, Bool.not_true, Bool.and_false, Bool.false_and]

theorem functions_stripDeadPrototypes (m : IrModule) (preserve : List String) :
    (stripDeadPrototypes m preserve).1.functions = m.functions.filter fun _ f =>
  !isDeadPrototype m preserve f := rfl

theorem holds_stripDeadPrototypes (hs : (stripDeadPrototypes m preserve).1.Holds n s) :
    m.Holds n s := by
  cases s with
  | function f => exact (Table.get?_filter_eq_some.1 hs).1
  | global g => exact hs

theorem verified_stripDeadPrototypes (hm : m.WellNamed) (hv : Verified m) :
    Verified (stripDeadPrototypes m preserve).1 := by
  refine hv.of_holds hm (trims_stripDeadPrototypes m preserve) holds_stripDeadPrototypes
    fun {n k} hn _ hk hmem => ?_
  obtain ⟨s, hs⟩ := Option.isSome_iff_exists.1 (IrModule.mem_symbolNames.1 hmem)
  have hkept : (stripDeadPrototypes m preserve).1.Holds k s := by
    cases s with
    | function f =>
      have hmentioned : f.name ∈ m.symbolNames.flatMap m.referencesOf := by
        rw [show f.name = k from hm.name_eq hs]
        exact mem_flatMap.2 ⟨n, hn, hk⟩
      rw [IrModule.Holds, functions_stripDeadPrototypes, Table.get?_filter_eq_some]
      exact ⟨IrModule.symbol?_eq_function.1 hs, by
        rw [isDeadPrototype_of_mentioned hmentioned]; rfl⟩
    | global g => exact hm.symbol?_eq_global.1 hs
  exact hkept.mem_symbolNames

/-! ## Runs -/

theorem verified_internalize (hm : m.WellNamed) (hv : Verified m) :
    Verified (internalize m preserve).1 := by
  refine hv.of_trims (trims_internalize m preserve) fun n hn k hk => ?_
  rw [mem_symbolNames_internalize] at hn ⊢
  rw [referencesOf_internalize hm] at hk
  exact hv.references n hn k hk

theorem Pass.run_verified (p : Pass) (hm : m.WellNamed) (hv : Verified m) (preserve : List String) :
    ∃ m' c, p.run m preserve = .ok (m', c) ∧ m'.WellNamed ∧ Verified m' := by
  cases p with
  | internalize => exact ⟨_, _, rfl, wellNamed_internalize hm preserve, verified_internalize hm hv⟩
  | globalDce => exact ⟨_, _, rfl, hm.of_subset holds_globalDce, verified_globalDce hm hv⟩
  | stripDeadPrototypes =>
    exact ⟨_, _, rfl, hm.of_subset holds_stripDeadPrototypes, verified_stripDeadPrototypes hm hv⟩
  | verify => exact ⟨m, 0, run_verify_of_verified hv, hm, hv⟩

namespace Pipeline

theorem runPasses_verified (hm : m.WellNamed) (hv : Verified m) (ps : List Pass)
    (preserve : List String) :
    ∃ m', runPasses preserve ps m = (m', none) ∧ m'.WellNamed ∧ Verified m' := by
  induction ps generalizing m with
  | nil => exact ⟨m, rfl, hm, hv⟩
  | cons p ps ih =>
    obtain ⟨m1, c, hrun, hm1, hv1⟩ := p.run_verified hm hv preserve
    unfold runPasses
    rw [hrun]
    exact ih hm1 hv1

/-- A run that fails does so at a verification, and leaves what the passes before it left. -/
structure Refused (preserve : List String) (ps : List Pass) (m m' : IrModule)
    (before after : List Pass) : Prop where
  split : ps = before ++ .verify :: after
  before : runPasses preserve before m = (m', none)
  problems : verifyProblems m' ≠ []
  run : runPasses preserve ps m = (m', some (.verify, problemText (verifyProblems m')))

theorem runPasses_cases (preserve : List String) (ps : List Pass) (m : IrModule) :
    (∃ m', runPasses preserve ps m = (m', none)) ∨ ∃ m' before after,
    Refused preserve ps m m' before after := by
  induction ps generalizing m with
  | nil => exact .inl ⟨m, rfl⟩
  | cons p ps ih =>
    cases hp : p.run m preserve with
    | ok r =>
      have hstep : ∀ qs, runPasses preserve (p :: qs) m = runPasses preserve qs r.1 := by
        intro qs
        rw [runPasses, hp]
      rcases ih r.1 with ⟨m', h⟩ | ⟨m', before, after, h⟩
      · exact .inl ⟨m', (hstep ps).trans h⟩
      · refine .inr ⟨m', p :: before, after, by rw [h.split]; rfl, ?_, h.problems, ?_⟩
        · exact (hstep before).trans h.before
        · exact (hstep ps).trans h.run
    | error complaint =>
      cases p with
      | verify =>
        refine .inr ⟨m, [], ps, rfl, rfl, ?_, ?_⟩
        · intro hv
          simp [Pass.run, hv] at hp
        · rw [runPasses, hp]
          unfold Pass.run at hp
          cases hv : verifyProblems m with
          | nil => simp [hv] at hp
          | cons a r =>
            rw [hv] at hp
            cases hp
            rfl
      | _ => cases hp

/-- The handle with another module, in no stage's hands. -/
def freed (h : Handle) (m : IrModule) : Handle :=
  { h with module := some m, owner := none, holds := 0 }

/-- What a run on a free handle comes to. -/
theorem run_free (p : Pipeline) {h : Handle} (hm : h.module = some m) (ho : h.owner = none)
    (preserve : List String) :
    p.run h preserve = (freed h (runPasses preserve p.closed m).1,
      match (runPasses preserve p.closed m).2 with
      | none => .ok ()
      | some (pass, complaint) =>
        .error (.fault ⟨.optimization complaint (some pass.name), some h.identifier, false⟩)) := by
  unfold run Handle.acquire
  rw [hm, ho]
  dsimp only
  cases runPasses preserve p.closed m with
  | mk m' failed =>
    cases failed with
    | none => rfl
    | some f => rfl

theorem acquire_module {h held : Handle} {stage : String} (ha : h.acquire stage = .ok (held, m)) :
    h.module = some m := by
  unfold Handle.acquire at ha
  split at ha
  · cases ha
  · next m0 hm =>
    split at ha
    · cases ha
      exact hm
    · split_ifs at ha
      cases ha
      exact hm

theorem run_ok (p : Pipeline) {h h' : Handle} (hm : h.module = some m)
    (hrun : p.run h preserve = (h', .ok ())) :
    ∃ m', h'.module = some m' ∧ runPasses preserve p.closed m = (m', none) := by
  unfold run at hrun
  cases ha : h.acquire "optimize" with
  | error e => simp [ha] at hrun
  | ok acquired =>
    obtain ⟨held, m0⟩ := acquired
    obtain rfl : m = m0 := Option.some.inj (hm.symm.trans (acquire_module ha))
    rw [ha] at hrun
    dsimp only at hrun
    cases hp : runPasses preserve p.closed m with
    | mk m' failed =>
      rw [hp] at hrun
      cases failed with
      | some f => cases hrun
      | none =>
        refine ⟨m', ?_, rfl⟩
        obtain ⟨rfl, -⟩ := Prod.mk.inj hrun
        unfold Handle.release
        split
        · next hr =>
          split_ifs at hr
          cases hr
          rfl
        · rfl

/-- A pipeline succeeds on a verified module and keeps it verified from pass to pass: no pass
removes a symbol that a symbol it leaves mentions. On any module it fails at a verification only,
with the module as the passes before left it. The handle is free afterwards in either case. -/
theorem run_stays_verified (p : Pipeline) (h : Handle) (m : IrModule) (preserve : List String)
    (hm : h.module = some m) (ho : h.owner = none) :
    (m.WellNamed → verifyProblems m = [] →
      (∃ m', p.run h preserve = (freed h m', .ok ()) ∧ verifyProblems m' = []) ∧
      ∀ before, before <+: p.closed → ∃ m₁, runPasses preserve before m = (m₁, none) ∧
        ∀ n ∈ m₁.symbolNames, ∀ k ∈ m₁.referencesOf n, k ∈ m₁.symbolNames) ∧
    ((∃ m', runPasses preserve p.closed m = (m', none) ∧ p.run h preserve = (freed h m', .ok ())) ∨
      ∃ m' before after, p.closed = before ++ .verify :: after ∧
        runPasses preserve before m = (m', none) ∧ verifyProblems m' ≠ [] ∧
        p.run h preserve =
          (freed h m', .error (.fault ⟨.optimization (problemText (verifyProblems m'))
          (some Pass.verify.name), some h.identifier, false⟩))) := by
  rw [run_free p hm ho]
  refine ⟨fun hw hv => ⟨?_, ?_⟩, ?_⟩
  · obtain ⟨m', hrun, -, hv'⟩ :=
      runPasses_verified hw (verifyProblems_eq_nil.1 hv) p.closed preserve
    exact ⟨m', by rw [hrun], verifyProblems_eq_nil.2 hv'⟩
  · intro before _
    obtain ⟨m₁, hrun, -, hv₁⟩ := runPasses_verified hw (verifyProblems_eq_nil.1 hv) before preserve
    exact ⟨m₁, hrun, hv₁.references⟩
  · rcases runPasses_cases preserve p.closed m with ⟨m', hrun⟩ | ⟨m', before, after, hr⟩
    · exact .inl ⟨m', hrun, by rw [hrun]⟩
    · exact .inr ⟨m', before, after, hr.split, hr.before, hr.problems, by rw [hr.run]⟩

/-- A program that calls a helper at a known place; an orphan calls a function that is only
declared. -/
def sampleAttached : IrModule where
  functions := .ofList [
    ("main", ⟨"main", "define i32 @main() \x7b",
      [⟨"entry", [⟨"  call void @helper(), !dbg !0"⟩], none⟩]⟩),
    ("helper", ⟨"helper", "define void @helper() \x7b", []⟩),
    ("orphan", ⟨"orphan", "define void @orphan() \x7b",
      [⟨"entry", [⟨"  call void @puts()"⟩], none⟩]⟩),
    ("puts", ⟨"puts", "declare void @puts()", []⟩)]
  metadata := .ofList [(0, ⟨0, "!DILocation(line: 1)"⟩)]

theorem sampleAttached_stays_verified :
    sampleAttached.WellNamed ∧ verifyProblems sampleAttached = [] ∧
      ∃ m', (Pipeline.mk [.internalize, .globalDce, .stripDeadPrototypes]).run
        (.new sampleAttached ["a.bc"]) ["main"] =
          (freed (.new sampleAttached ["a.bc"]) m', .ok ()) ∧ verifyProblems m' = [] := by
  have hw : sampleAttached.WellNamed := by decide +kernel
  have hv : verifyProblems sampleAttached = [] := verifyProblems_eq_nil.2 (by decide +kernel)
  exact ⟨hw, hv,
    ((run_stays_verified _ (.new sampleAttached ["a.bc"]) sampleAttached ["main"] rfl rfl).1
    hw hv).1⟩

end Pipeline

end CallAtlas.Optimize
