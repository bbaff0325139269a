import CallAtlas.Optimize.Pipeline
import CallAtlas.Proofs.Graph.Reach
import CallAtlas.Proofs.Ir.Linkage

/-!
# What the default passes keep

Internalization followed by the removal of unreachable symbols keeps the symbols that are `Live`:
those to preserve, reserved and appending definitions, and from there on all that is mentioned or
shares a comdat group. `keeps_live` says so, and what becomes of the linkages. Internalization
changes no reference, no group and no definition, so liveness can be read off the module before the
passes; of the linkages it depends on appending ones only.
-/

namespace CallAtlas.Optimize

open Ir List

variable {m m₂ : IrModule} {preserve : List String} {n k : String} {s : Symbol}

/-- The symbols that the passes keep, by the module before them. -/
inductive Live (m : IrModule) (preserve : List String) : String → Prop
  | preserved {n : String} (hp : n ∈ preserve) (hn : n ∈ m.symbolNames) : Live m preserve n
  | reserved {n : String} {s : Symbol} (hs : m.symbol? n = some s) (hd : s.isDeclaration = false)
      (hr : isReserved n) : Live m preserve n
  | appending {n : String} {s : Symbol} (hs : m.symbol? n = some s) (hd : s.isDeclaration = false)
      (ha : s.linkage = .appending) : Live m preserve n
  | reference {n k : String} (hn : Live m preserve n) (hr : k ∈ m.referencesOf n)
    (hk : k ∈ m.symbolNames) :
      Live m preserve k
  | group {n k g : String} (hn : Live m preserve n) (hg : groupOf? m n = some g)
    (hk : groupOf? m k = some g) :
      Live m preserve k

/-- Symbols stand under their own names, and headers have a space behind their keyword. -/
structure Regular (m : IrModule) : Prop where
  wellNamed : m.WellNamed
  functions : ∀ e ∈ m.functions.entries, e.2.Spaced

theorem Regular.spaced (hm : Regular m) (h : m.symbol? n = some s) : s.Spaced := by
  cases s with
  | function f => exact hm.functions (n, f) (Table.get?_eq_some.1 (IrModule.holds_of_symbol? h))
  | global g => trivial

/-! ## Internalization -/

/-- The symbol as internalization leaves it. -/
def localized (preserve : List String) (s : Symbol) : Symbol :=
  if becomesLocal preserve s then s.setLinkage Linkage.internal.keyword else s

theorem localized_function (f : Function) :
    localized preserve (.function f) = .function (internalizeFunction preserve f) := by
  unfold localized internalizeFunction
  split <;> rfl

theorem localized_global (g : Global) :
    localized preserve (.global g) = .global (internalizeGlobal preserve g) := by
  unfold localized internalizeGlobal
  split <;> rfl

theorem symbol?_internalize (m : IrModule) (preserve : List String) (n : String) :
    (internalize m preserve).1.symbol? n = (m.symbol? n).map (localized preserve) := by
  unfold IrModule.symbol? internalize
  simp only [Table.get?_map]
  cases m.functions.get? n with
  | some f => exact congrArg some (localized_function f).symm
  | none =>
    cases m.globals.get? n with
    | none => rfl
    | some g => exact congrArg some (localized_global g).symm

theorem name_localized (s : Symbol) : (localized preserve s).name = s.name := by
  unfold localized
  split
  · exact s.name_setLinkage _
  · rfl

theorem isDeclaration_localized (s : Symbol) :
    (localized preserve s).isDeclaration = s.isDeclaration := by
  unfold localized
  split
  · next hb =>
    have hd : s.isDeclaration = false := by
      simp only [becomesLocal, Bool.and_eq_true, Bool.not_eq_true'] at hb
      exact hb.1.1.1.1.1
    rw [Symbol.isDeclaration_setLinkage (by decide) (by decide) hd, hd]
  · rfl

theorem references_localized (hs : s.Headed) :
    (localized preserve s).references = s.references := by
  unfold localized
  split
  · exact Symbol.references_setLinkage hs Linkage.internal.isLeadingKeyword_keyword (by decide)
  · rfl

theorem localized_reads (hs : s.Spaced) : (localized preserve s).references = s.references ∧
    (localized preserve s).comdat = s.comdat ∧
    (localized preserve s).isDeclaration = s.isDeclaration := by
  refine ⟨references_localized hs.headed, ?_, isDeclaration_localized s⟩
  unfold localized
  split
  · exact Symbol.comdat_setLinkage hs Linkage.internal.isLeadingKeyword_keyword (by decide)
  · rfl

/-- A definition that internalization leaves is alive by itself if it is preserved, reserved or
appending. -/
theorem isRoot_localized (hd : s.isDeclaration = false) :
    isRoot preserve (localized preserve s) ↔ s.name ∈ preserve ∨ isReserved s.name ∨
    s.linkage = .appending := by
  unfold isRoot
  rw [name_localized]
  by_cases hp : s.name ∈ preserve
  · simp [hp]
  · cases hr : isReserved s.name with
    | true => simp
    | false =>
      unfold localized becomesLocal Symbol.isLocal
      cases hl : s.linkage <;> simp [hd, hp, hr, hl, Linkage.isLocal, Linkage.isDiscardable]
      all_goals rw [Symbol.linkage_setLinkage (by decide)]
      all_goals decide

theorem mem_symbolNames_internalize :
    n ∈ (internalize m preserve).1.symbolNames ↔ n ∈ m.symbolNames := by
  rw [IrModule.mem_symbolNames, IrModule.mem_symbolNames, symbol?_internalize, Option.isSome_map]

theorem referencesOf_internalize (hm : m.WellNamed) :
    (internalize m preserve).1.referencesOf n = m.referencesOf n := by
  unfold IrModule.referencesOf
  rw [symbol?_internalize]
  cases hs : m.symbol? n with
  | none => rfl
  | some s => exact references_localized (hm.headed hs)

theorem groupOf?_internalize (hm : Regular m) :
    groupOf? (internalize m preserve).1 n = groupOf? m n := by
  unfold groupOf?
  rw [symbol?_internalize]
  cases hs : m.symbol? n with
  | none => rfl
  | some s => exact congrArg (Option.filter _) (localized_reads (hm.spaced hs)).2.1

theorem mem_definitions (hm : m.Keyed) :
    s ∈ m.definitions ↔ m.symbol? s.name = some s ∧ s.isDeclaration = false := by
  rw [IrModule.mem_definitions, hm.symbol?_iff]
  refine and_congr_left' ⟨fun h => ?_, fun h => ⟨_, h⟩⟩
  obtain ⟨x, h⟩ := h
  rwa [hm.name_eq (hm.symbol?_iff.2 h)]

theorem wellNamed_internalize (hm : m.WellNamed) (preserve : List String) :
    (internalize m preserve).1.WellNamed := by
  have hl {n s} (h : m.Holds n s) : (localized preserve s).name = n ∧
      (localized preserve s).Headed := by
    rw [name_localized]
    unfold localized
    split
    · exact ⟨(hm.holds h).1, (Symbol.spaced_setLinkage s _).headed⟩
    · exact hm.holds h
  refine .of_holds ?_ ?_
  · intro n s hs
    cases s with
    | function f =>
      obtain ⟨f, hf, rfl⟩ := Option.map_eq_some_iff.1 ((Table.get?_map ..).symm.trans hs)
      exact localized_function f ▸ hl hf
    | global g =>
      obtain ⟨g, hg, rfl⟩ := Option.map_eq_some_iff.1 ((Table.get?_map ..).symm.trans hs)
      exact localized_global g ▸ hl hg
  · simpa [internalize] using hm.disjoint

/-! ## Removal -/

theorem mem_keepsAlive : k ∈ keepsAlive m n ↔
    k ∈ m.referencesOf n ∨ ∃ g, groupOf? m n = some g ∧ k ∈ m.symbolNames ∧
    groupOf? m k = some g := by
  unfold keepsAlive
  cases groupOf? m n with
  | none => simp
  | some g => simp [groupMembers]

theorem symbol?_globalDce (m : IrModule) (preserve : List String) (n : String) :
    (globalDce m preserve).1.symbol? n = if n ∈ liveSymbols m preserve then m.symbol? n
    else none := by
  have hget : (globalDce m preserve).1.symbol? n =
      (restrictSymbols m (liveSymbols m preserve)).symbol? n := rfl
  rw [hget]
  unfold IrModule.symbol? restrictSymbols
  simp only [Table.get?_filter_key, contains_iff_mem]
  split_ifs <;> rfl

theorem mem_symbolNames_globalDce :
    n ∈ (globalDce m preserve).1.symbolNames ↔ n ∈ liveSymbols m preserve := by
  rw [IrModule.mem_symbolNames, symbol?_globalDce]
  constructor
  · intro h
    by_contra hn
    rw [if_neg hn] at h
    cases h
  · intro h
    rw [if_pos h, ← IrModule.mem_symbolNames]
    cases Graph.mem_reachable.1 h <;> assumption

theorem mem_liveRoots (hm : m.Keyed) : n ∈ liveRoots m preserve ↔
    n ∈ preserve ∨ ∃ s, m.symbol? n = some s ∧ s.isDeclaration = false ∧ isRoot preserve s := by
  unfold liveRoots
  rw [mem_append, mem_map, or_comm]
  refine or_congr Iff.rfl ⟨?_, ?_⟩
  · rintro ⟨s, hs, rfl⟩
    obtain ⟨hs, hr⟩ := mem_filter.1 hs
    obtain ⟨hs, hd⟩ := (mem_definitions hm).1 hs
    exact ⟨s, hs, hd, hr⟩
  · rintro ⟨s, hs, hd, hr⟩
    have hn := hm.name_eq hs
    exact ⟨s, mem_filter.2 ⟨(mem_definitions hm).2 ⟨by rw [hn, hs], hd⟩, hr⟩, hn⟩

theorem mem_symbolNames_of_group {g : String} (h : groupOf? m n = some g) : n ∈ m.symbolNames := by
  rw [IrModule.mem_symbolNames]
  cases hs : m.symbol? n with
  | none => simp [groupOf?, hs] at h
  | some s => rfl

theorem live_mem (h : Live m preserve n) : n ∈ m.symbolNames := by
  cases h with
  | preserved _ hn => exact hn
  | reserved hs => exact IrModule.mem_symbolNames_of_symbol? hs
  | appending hs => exact IrModule.mem_symbolNames_of_symbol? hs
  | reference _ _ hk => exact hk
  | group _ _ hk => exact mem_symbolNames_of_group hk

theorem mem_liveSymbols (hm : Regular m) :
    n ∈ liveSymbols (internalize m preserve).1 preserve ↔ Live m preserve n := by
  have hw := (wellNamed_internalize hm.wellNamed preserve).keyed
  unfold liveSymbols
  rw [Graph.mem_reachable]
  constructor
  · intro h
    induction h with
    | @root v hr hv =>
      rw [mem_symbolNames_internalize] at hv
      rcases (mem_liveRoots hw).1 hr with hp | ⟨s, hs, hd, hroot⟩
      · exact .preserved hp hv
      · rw [symbol?_internalize] at hs
        obtain ⟨s0, hs0, rfl⟩ := Option.map_eq_some_iff.1 hs
        rw [isDeclaration_localized] at hd
        rw [isRoot_localized hd, hm.wellNamed.name_eq hs0] at hroot
        rcases hroot with hp | hr | ha
        · exact .preserved hp hv
        · exact .reserved hs0 hd hr
        · exact .appending hs0 hd ha
    | step _ hn hv ih =>
      rw [mem_symbolNames_internalize] at hv
      rcases mem_keepsAlive.1 hn with hr | ⟨g, hu, -, hk⟩
      · rw [referencesOf_internalize hm.wellNamed] at hr
        exact .reference ih hr hv
      · rw [groupOf?_internalize hm] at hu hk
        exact .group ih hu hk
  · intro h
    have hmem := fun {x} (h : Live m preserve x) =>
      (mem_symbolNames_internalize : x ∈ (internalize m preserve).1.symbolNames ↔ _).2 (live_mem h)
    have hroot : ∀ {x s}, m.symbol? x = some s → s.isDeclaration = false →
        (isReserved x ∨ s.linkage = .appending) →
        x ∈ liveRoots (internalize m preserve).1 preserve := by
      intro x s hs hd h
      refine (mem_liveRoots hw).2 (.inr ⟨localized preserve s, ?_, ?_, ?_⟩)
      · rw [symbol?_internalize, hs]
        rfl
      · rw [isDeclaration_localized, hd]
      · rw [isRoot_localized hd, hm.wellNamed.name_eq hs]
        exact .inr h
    induction h with
    | preserved hp hn => exact .root ((mem_liveRoots hw).2 (.inl hp)) (hmem (.preserved hp hn))
    | reserved hs hd hr => exact .root (hroot hs hd (.inl hr)) (hmem (.reserved hs hd hr))
    | appending hs hd ha => exact .root (hroot hs hd (.inr ha)) (hmem (.appending hs hd ha))
    | @reference u v hn hr hk ih =>
      refine .step ih (mem_keepsAlive.2 (.inl ?_)) (hmem (.reference hn hr hk))
      rwa [referencesOf_internalize hm.wellNamed]
    | @group u v g hn hg hk ih =>
      have hv := hmem (.group hn hg hk)
      refine .step ih (mem_keepsAlive.2 (.inr ⟨g, ?_, hv, ?_⟩)) hv
      · rwa [groupOf?_internalize hm]
      · rwa [groupOf?_internalize hm]

/-! ## Modules that differ in linkages -/

/-- Two symbols that are the same up to the linkage of a definition; an appending one stays
appending. -/
def Alike (s s₂ : Symbol) : Prop :=
  s = s₂ ∨ s.isDeclaration = false ∧ s₂.isDeclaration = false ∧
    (s.linkage = .appending ↔ s₂.linkage = .appending) ∧
    s.setLinkage Linkage.internal.keyword = s₂.setLinkage Linkage.internal.keyword

/-- Modules whose symbols are alike. -/
structure SameButLinkage (m m₂ : IrModule) : Prop where
  regular : Regular m₂
  names : ∀ n, (m₂.symbol? n).isSome = (m.symbol? n).isSome
  alike : ∀ n s s₂, m.symbol? n = some s → m₂.symbol? n = some s₂ → Alike s s₂

theorem Alike.symm {s s₂ : Symbol} (h : Alike s s₂) : Alike s₂ s := by
  rcases h with rfl | ⟨h1, h2, h3, h4⟩
  · exact .inl rfl
  · exact .inr ⟨h2, h1, h3.symm, h4.symm⟩

theorem Alike.reads {s s₂ : Symbol} (h : Alike s s₂) (hs : s.Spaced) (hs₂ : s₂.Spaced) :
    s.references = s₂.references ∧ s.comdat = s₂.comdat := by
  rcases h with rfl | ⟨-, -, -, h⟩
  · exact ⟨rfl, rfl⟩
  · have hk := Linkage.internal.isLeadingKeyword_keyword
    rw [← Symbol.references_setLinkage hs.headed hk (by decide), h,
      Symbol.references_setLinkage hs₂.headed hk (by decide),
      ← Symbol.comdat_setLinkage hs hk (by decide), h, Symbol.comdat_setLinkage hs₂ hk (by decide)]
    exact ⟨rfl, rfl⟩

namespace SameButLinkage

theorem symm (hm : Regular m) (h : SameButLinkage m m₂) : SameButLinkage m₂ m :=
  ⟨hm, fun n => (h.names n).symm, fun n s s2 hs hs2 => (h.alike n s2 s hs2 hs).symm⟩

theorem exists_symbol (h : SameButLinkage m m₂) (hs : m.symbol? n = some s) :
    ∃ s2, m₂.symbol? n = some s2 ∧ Alike s s2 := by
  have hsome : (m₂.symbol? n).isSome := by
    rw [h.names, hs]
    rfl
  obtain ⟨s2, hs2⟩ := Option.isSome_iff_exists.1 hsome
  exact ⟨s2, hs2, h.alike n s s2 hs hs2⟩

theorem mem_symbolNames (h : SameButLinkage m m₂) (hn : n ∈ m.symbolNames) :
    n ∈ m₂.symbolNames := by
  rw [IrModule.mem_symbolNames, h.names, ← IrModule.mem_symbolNames]
  exact hn

theorem reads (hm : Regular m) (h : SameButLinkage m m₂) (n : String) :
    m₂.referencesOf n = m.referencesOf n ∧ groupOf? m₂ n = groupOf? m n := by
  unfold IrModule.referencesOf groupOf?
  cases hs : m.symbol? n with
  | none =>
    have hnone : m₂.symbol? n = none := by
      rw [← Option.isNone_iff_eq_none, ← Option.not_isSome, h.names, hs]
      rfl
    rw [hnone]
    exact ⟨rfl, rfl⟩
  | some s =>
    obtain ⟨s2, hs2, hal⟩ := h.exists_symbol hs
    obtain ⟨hr, hc⟩ := hal.reads (hm.spaced hs) (h.regular.spaced hs2)
    simp only [hs2, Option.bind_some, hr, hc, and_self]

theorem live (hm : Regular m) (h : SameButLinkage m m₂) (hl : Live m preserve n) :
    Live m₂ preserve n := by
  induction hl with
  | preserved hp hn => exact .preserved hp (h.mem_symbolNames hn)
  | reserved hs hd hr =>
    obtain ⟨s2, hs2, rfl | ⟨-, hd2, -, -⟩⟩ := h.exists_symbol hs
    · exact .reserved hs2 hd hr
    · exact .reserved hs2 hd2 hr
  | appending hs hd ha =>
    obtain ⟨s2, hs2, rfl | ⟨-, hd2, happ, -⟩⟩ := h.exists_symbol hs
    · exact .appending hs2 hd ha
    · exact .appending hs2 hd2 (happ.1 ha)
  | @reference u v _ hr hk ih =>
    refine .reference ih ?_ (h.mem_symbolNames hk)
    rwa [(h.reads hm u).1]
  | @group u v g _ hg hk ih =>
    refine .group ih (g := g) ?_ ?_
    · rwa [(h.reads hm u).2]
    · rwa [(h.reads hm v).2]

end SameButLinkage

/-! ## The passes together -/

theorem runPasses_default (m : IrModule) (preserve : List String) :
    Pipeline.runPasses preserve [.internalize, .globalDce] m =
      ((globalDce (internalize m preserve).1 preserve).1, none) := rfl

theorem symbol?_default (m : IrModule) (preserve : List String) (n : String) :
    (Pipeline.runPasses preserve [.internalize, .globalDce] m).1.symbol? n =
      if n ∈ liveSymbols (internalize m preserve).1 preserve
      then (m.symbol? n).map (localized preserve) else none := by
  rw [runPasses_default, symbol?_globalDce, symbol?_internalize]

theorem mem_symbolNames_default (hm : Regular m) :
    n ∈ (Pipeline.runPasses preserve [.internalize, .globalDce] m).1.symbolNames ↔
    Live m preserve n :=
  mem_symbolNames_globalDce.trans (mem_liveSymbols hm)

theorem localized_of_preserved (h : s.name ∈ preserve) : localized preserve s = s := by
  have : becomesLocal preserve s = false := by simp [becomesLocal, h]
  rw [localized, this, if_neg Bool.false_ne_true]

/-- Outside the preserved and the reserved names, a definition is local, a copy or appending. -/
theorem isLocal_localized (hd : s.isDeclaration = false) (hp : s.name ∉ preserve)
    (hr : isReserved s.name = false)
    (hx : (localized preserve s).linkage ≠ .availableExternally)
    (ha : (localized preserve s).linkage ≠ .appending) :
    (localized preserve s).isLocal := by
  unfold localized at hx ha ⊢
  split_ifs at hx ha ⊢ with hb
  · rw [Symbol.isLocal, Symbol.linkage_setLinkage (by decide)]
    rfl
  · by_contra hl
    exact hb (by simp [becomesLocal, hd, hp, hr, hl, hx, ha])

/-- The default passes keep exactly the live symbols. What they keep outside the preserved and the
reserved names is local unless its linkage is excepted, what is to be preserved they keep as it is,
and which symbols they keep depends on no linkage but the appending one. -/
theorem keeps_live (m : IrModule) (hm : Regular m) (preserve : List String) :
    ∃ m', Pipeline.runPasses preserve [.internalize, .globalDce] m = (m', none) ∧
      (∀ n, n ∈ m'.symbolNames ↔ Live m preserve n) ∧
      (∀ n s, m'.symbol? n = some s → s.isDeclaration = false → n ∉ preserve →
        isReserved n = false →
        s.linkage ≠ .availableExternally → s.linkage ≠ .appending → s.isLocal = true) ∧
      (∀ n ∈ preserve, m'.symbol? n = m.symbol? n) ∧
      ∀ m₂, SameButLinkage m m₂ →
        ∀ n, n ∈ (Pipeline.runPasses preserve [.internalize, .globalDce] m₂).1.symbolNames ↔
        n ∈ m'.symbolNames := by
  refine ⟨_, runPasses_default m preserve, ?_, ?_, ?_, ?_⟩
  · exact fun n => mem_symbolNames_default hm
  · intro n s hs hd hp hr hx ha
    have hs' := (symbol?_default m preserve n).symm.trans hs
    split_ifs at hs'
    obtain ⟨s₀, hs₀, rfl⟩ := Option.map_eq_some_iff.1 hs'
    have hn := hm.wellNamed.name_eq hs₀
    rw [(localized_reads (hm.spaced hs₀)).2.2] at hd
    exact isLocal_localized hd (hn ▸ hp) (hn ▸ hr) hx ha
  · intro n hp
    refine (symbol?_default m preserve n).trans ?_
    cases hs : m.symbol? n with
    | none => rw [Option.map_none, ite_self]
    | some s =>
      have hlive : Live m preserve n := .preserved hp (IrModule.mem_symbolNames_of_symbol? hs)
      rw [if_pos ((mem_liveSymbols hm).2 hlive), Option.map_some,
        localized_of_preserved (hm.wellNamed.name_eq hs ▸ hp)]
  · intro m₂ h n
    refine (mem_symbolNames_default h.regular).trans
      (Iff.trans ⟨?_, ?_⟩ (mem_symbolNames_default hm).symm)
    · exact (h.symm hm).live h.regular
    · exact h.live hm

/-- A program with a helper that it mentions, a list that is kept by its linkage and refers to a
function of a comdat group, and a function that nothing mentions. -/
def sampleProgram : IrModule where
  globals := .ofList [
    ("list", ⟨"list", "appending global [1 x ptr] [ptr @member]"⟩),
    ("data", ⟨"data", "linkonce_odr global i32 1, comdat($group)"⟩)]
  functions := .ofList [
    ("main", ⟨"main", "define dso_local i32 @main() \x7b",
      [⟨"entry", [⟨"  call void @helper()"⟩], none⟩]⟩),
    ("helper", ⟨"helper", "define hidden void @helper() \x7b", []⟩),
    ("member", ⟨"member", "define weak void @member() comdat($group) \x7b", []⟩),
    ("orphan", ⟨"orphan", "define void @orphan() \x7b", []⟩),
    ("printf", ⟨"printf", "declare i32 @printf(ptr, ...)", []⟩)]

theorem sampleProgram_kept :
    Regular sampleProgram ∧
      ∃ m', Pipeline.runPasses ["main"] [.internalize, .globalDce] sampleProgram = (m', none) ∧
      "helper" ∈ m'.symbolNames ∧ "data" ∈ m'.symbolNames ∧
      m'.symbol? "main" = sampleProgram.symbol? "main" := by
  have hm : Regular sampleProgram := ⟨by decide +kernel, by decide +kernel⟩
  obtain ⟨m', hrun, hlive, -, hkept, -⟩ := keeps_live sampleProgram hm ["main"]
  refine ⟨hm, m', hrun, (hlive _).2 ?_, (hlive _).2 ?_, hkept _ (by simp)⟩
  · have hmain : Live sampleProgram ["main"] "main" := .preserved (by simp) (by decide +kernel)
    exact .reference hmain (by decide +kernel) (by decide +kernel)
  · -- The list keeps the member of the group, and the member its group.
    obtain ⟨s, hs⟩ : ∃ s, sampleProgram.symbol? "list" = some s :=
      Option.isSome_iff_exists.1 (by decide +kernel)
    have hlist : Live sampleProgram ["main"] "list" := by
      have hd : (sampleProgram.symbol? "list").all (!·.isDeclaration) = true := by decide +kernel
      have ha : (sampleProgram.symbol? "list").all (·.linkage = .appending) = true := by
        decide +kernel
      rw [hs] at hd ha
      exact .appending hs (by simpa using hd) (by simpa using ha)
    have hmember : Live sampleProgram ["main"] "member" :=
      .reference hlist (by decide +kernel) (by decide +kernel)
    have hgroup : groupOf? sampleProgram "member" = some "group" ∧
        groupOf? sampleProgram "data" = some "group" := by
      decide +kernel
    exact .group hmember hgroup.1 hgroup.2

/-- Two global values in the comdat group without a name. -/
def sampleUnnamed : IrModule where
  comdats := .ofList [("", "any")]
  globals := .ofList [
    ("a", ⟨"a", "global i32 1, comdat($\"\")"⟩),
    ("b", ⟨"b", "global i32 2, comdat($\"\")"⟩)]

theorem live_sampleUnnamed (h : Live sampleUnnamed ["a"] n) : n = "a" := by
  have hnames : ∀ x ∈ sampleUnnamed.symbolNames, x = "a" ∨ x = "b" := by decide +kernel
  induction h with
  | preserved hp _ => exact mem_singleton.1 hp
  | reserved hs _ hr =>
    obtain rfl | rfl := hnames _ (IrModule.mem_symbolNames_of_symbol? hs)
    · rfl
    · exact absurd hr (by decide +kernel)
  | appending hs _ ha =>
    obtain rfl | rfl := hnames _ (IrModule.mem_symbolNames_of_symbol? hs)
    · rfl
    · have hl : (sampleUnnamed.symbol? "b").all (·.linkage = .external) = true := by decide +kernel
      rw [hs, Option.all_some, ha] at hl
      cases hl
  | reference _ hr _ ih =>
    have hnone : sampleUnnamed.referencesOf "a" = [] := by decide +kernel
    rw [ih, hnone] at hr
    cases hr
  | group _ hg _ ih =>
    have hnone : groupOf? sampleUnnamed "a" = none := by decide +kernel
    rw [ih, hnone] at hg
    cases hg

/-- The comdat group without a name is not kept together. -/
theorem sampleUnnamed_parted :
    (sampleUnnamed.symbol? "a").bind Symbol.comdat = some "" ∧
      (sampleUnnamed.symbol? "b").bind Symbol.comdat = some "" ∧
      "a" ∈ (Pipeline.runPasses ["a"] [.internalize, .globalDce] sampleUnnamed).1.symbolNames ∧
      "b" ∉ (Pipeline.runPasses ["a"] [.internalize, .globalDce] sampleUnnamed).1.symbolNames := by
  have hm : Regular sampleUnnamed := ⟨by decide +kernel, by decide +kernel⟩
  refine ⟨by decide +kernel, by decide +kernel, ?_, ?_⟩
  · exact (mem_symbolNames_default hm).2 (.preserved (by simp) (by decide +kernel))
  · intro h
    exact absurd (live_sampleUnnamed ((mem_symbolNames_default hm).1 h)) (by decide)

end CallAtlas.Optimize
