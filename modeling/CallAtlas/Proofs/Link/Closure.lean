import CallAtlas.Proofs.Link.Faithful

/-!
# Closed modules stay closed

A module is `Closed` if its symbols refer to its symbols only. Modules that are `Linkable` are
joined into a closed module, and a join captures no reference: every symbol refers, under its new
name, to the new names of what it referred to in its module, `references_symbol`. What holds of the
arrays that several modules contribute to is `Arrays`: they refer to symbols of these modules.
-/

namespace CallAtlas.Link

open Ir IrModule List

variable {a : Global} {p : Passage} {s : Symbol} {text x y : String}

/-! ## References of a symbol -/

theorem eraseDups_map {f : String → String} (l : List String)
    (hf : ∀ a ∈ l, ∀ b ∈ l, f a = f b → a = b) :
    (l.map f).eraseDups = l.eraseDups.map f := by
  induction hn : l.length using Nat.strong_induction_on generalizing l with
  | _ n ih =>
    cases l with
    | nil => rfl
    | cons a l =>
      have hfilter : (l.map f).filter (fun b => !b == f a) =
          (l.filter (fun b => !b == a)).map f := by
        rw [filter_map]
        refine congrArg (map f) (filter_congr fun b hb => ?_)
        have hab : f b = f a ↔ b = a :=
          ⟨hf b (mem_cons_of_mem _ hb) a mem_cons_self, congrArg f⟩
        simp [hab]
      rw [map_cons, eraseDups_cons, eraseDups_cons, hfilter]
      refine congrArg _ (ih _ ?_ _ ?_ rfl)
      · have := length_filter_le (fun b => !b == a) l
        rw [← hn, length_cons]
        omega
      · intro b hb c hc
        exact hf b (mem_cons_of_mem _ (mem_of_mem_filter hb)) c
          (mem_cons_of_mem _ (mem_of_mem_filter hc))

def symbolTexts : Symbol → List String
  | .function f => f.header :: f.instructions.map Instruction.text
  | .global g => [g.segment]

theorem mem_references :
    y ∈ s.references ↔ y ≠ s.name ∧ ∃ text ∈ symbolTexts s, y ∈ refNames globalReader text := by
  cases s with
  | function f =>
    rw [and_comm]
    simp [Symbol.references, Function.references, symbolTexts, Symbol.name, globalRefs_eq]
  | global g =>
    rw [and_comm]
    simp [Symbol.references, Global.references, symbolTexts, Symbol.name, globalRefs_eq]

theorem globalRefs_passage (hp : p.Faithful) {names : List String}
    (hinj : ∀ a ∈ names, ∀ b ∈ names, p.name a = p.name b → a = b)
    (ht : Tidy globalReader text.toList) (hn : ∀ y ∈ refNames globalReader text, y ∈ names) :
    globalRefs (p.text text) = (globalRefs text).map p.name := by
  rw [globalRefs_eq, hp.refNames ht]
  exact eraseDups_map _ fun a ha b hb => hinj a (hn a ha) b (hn b hb)

theorem filter_ne_map {f : String → String} {l : List String} (hf : ∀ a ∈ l, f a = f x → a = x) :
    (l.map f).filter (· ≠ f x) = (l.filter (· ≠ x)).map f := by
  rw [filter_map]
  refine congrArg (map f) (filter_congr fun a ha => ?_)
  have hax : f a = f x ↔ a = x := ⟨hf a ha, congrArg f⟩
  simp [hax]

theorem references_symbol (hp : p.Faithful) (names : List String)
    (hinj : ∀ a ∈ names, ∀ b ∈ names, p.name a = p.name b → a = b) (hx : s.name ∈ names)
    (ht : ∀ text ∈ symbolTexts s, Tidy globalReader text.toList)
    (hn : ∀ text ∈ symbolTexts s, ∀ y ∈ refNames globalReader text, y ∈ names) :
    (p.symbol s).references = s.references.map p.name := by
  have hrefs : ∀ text ∈ symbolTexts s, globalRefs (p.text text) = (globalRefs text).map p.name :=
    fun text h => globalRefs_passage hp hinj (ht text h) (hn text h)
  have hmem : ∀ text ∈ symbolTexts s, ∀ y ∈ globalRefs text, y ∈ names := by
    intro text h y hy
    rw [globalRefs_eq, mem_eraseDups] at hy
    exact hn text h y hy
  cases s with
  | global g =>
    have hg : g.segment ∈ symbolTexts (.global g) := mem_cons_self
    show (globalRefs (p.text g.segment)).filter (· ≠ p.name g.name) = _
    rw [hrefs _ hg]
    exact filter_ne_map fun a ha => hinj a (hmem _ hg a ha) g.name hx
  | function f =>
    -- header and instructions together mention names of the module only
    have hh : f.header ∈ symbolTexts (.function f) := mem_cons_self
    have hi : ∀ i ∈ f.instructions, i.text ∈ symbolTexts (.function f) :=
      fun i h => mem_cons_of_mem _ (mem_map_of_mem h)
    have hall : ∀ y ∈ globalRefs f.header ++ f.instructions.flatMap (fun i => globalRefs i.text),
        y ∈ names := by
      intro y hy
      rcases mem_append.1 hy with hy | hy
      · exact hmem _ hh y hy
      · obtain ⟨i, hif, hy⟩ := mem_flatMap.1 hy
        exact hmem _ (hi i hif) y hy
    have hmap : (f.mapText p.text).instructions = f.instructions.map fun i => ⟨p.text i.text⟩ := by
      simp [Function.instructions, Function.mapText, flatMap_map, map_flatMap]
    have hflat : (f.mapText p.text).instructions.flatMap (fun i => globalRefs i.text) =
        (f.instructions.flatMap fun i => globalRefs i.text).map p.name := by
      rw [hmap, flatMap_map, map_flatMap]
      exact flatMap_congr fun i h => hrefs _ (hi i h)
    show ((globalRefs (p.text f.header) ++
      (f.mapText p.text).instructions.flatMap fun i => globalRefs i.text).eraseDups).filter (· ≠
      p.name f.name) = _
    rw [hrefs _ hh, hflat, ← map_append,
      eraseDups_map _ fun a ha b hb => hinj a (hall a ha) b (hall b hb)]
    refine filter_ne_map fun a ha => hinj a (hall a ?_) f.name hx
    exact mem_eraseDups.1 ha

/-! ## Modules that can be linked -/

/-- Every symbol refers to symbols of the module only. -/
def Closed (m : IrModule) : Prop := ∀ s ∈ symbolsInOrder m, ∀ y ∈ s.references, y ∈ m.symbolNames

instance (m : IrModule) : Decidable (Closed m) :=
  inferInstanceAs (Decidable (∀ s ∈ symbolsInOrder m, _))

/-- A closed module whose names survive their written form, whose texts are tidy, and in whose
arrays no quote and no reference stands before the elements, unless there are no elements. -/
@[mk_iff] structure Linkable (m : IrModule) : Prop where
  wellNamed : m.WellNamed
  closed : Closed m
  readable : ∀ x ∈ m.symbolNames, globalRefs (quoteName x "@") = [x]
  tidy : ∀ s ∈ symbolsInOrder m, ∀ text ∈ symbolTexts s, Tidy globalReader text.toList
  settled : ∀ a ∈ m.globals.values, a.linkage = .appending → settled a.segment.toList

instance (m : IrModule) : Decidable (Linkable m) := decidable_of_iff' _ (linkable_iff ..)

theorem closed_iff {m : IrModule} (hm : m.WellNamed) :
    Closed m ↔ ∀ x s, m.symbol? x = some s → ∀ y ∈ s.references, y ∈ m.symbolNames := by
  constructor
  · exact fun h x s hs => h s (mem_symbolsInOrder_of_symbol? hs)
  · intro h s hs
    exact h s.name s ((mem_symbolsInOrder hm).1 hs)

namespace Linkable

variable {m : IrModule} {x : String} {s : Symbol}

theorem refNames_mem (h : Linkable m) (hs : m.symbol? x = some s) (ht : text ∈ symbolTexts s)
    (hy : y ∈ refNames globalReader text) : y ∈ m.symbolNames := by
  by_cases hn : y = s.name
  · rw [hn, h.wellNamed.name_eq hs]
    exact mem_symbolNames_of_symbol? hs
  · exact h.closed s (mem_symbolsInOrder_of_symbol? hs) y (mem_references.2 ⟨hn, text, ht, hy⟩)

theorem legibleNames (h : Linkable m) : LegibleNames m := by
  intro x hx
  refine legible_of_refNames (show globalReader.read = _ from rfl) bareForm_globalName? (by decide)
    (show "@".toList = _ from rfl) ?_
  have hr := h.readable x hx
  rw [globalRefs_eq] at hr
  cases hl : refNames globalReader (quoteName x "@") with
  | nil => rw [hl] at hr; cases hr
  | cons y ys =>
    rw [hl, eraseDups_cons] at hr
    rw [(cons.inj hr).1]
    rfl

end Linkable

/-! ## Arrays of several modules -/

/-- The text is tidy, settled, and refers to symbols of the modules under their new names. -/
structure Sourced (js : List Joined) (text : String) : Prop where
  tidy : Tidy globalReader text.toList
  settled : settled text.toList
  source : ∀ z ∈ refNames globalReader text, ∃ j ∈ js, ∃ x ∈ j.source.symbolNames,
    j.passage.name x = z

def Arrays (js : List Joined) (g : Merger) : Prop :=
  ∀ ⦃y a⦄, g.dest.globals.get? y = some a → a.linkage = .appending → Sourced js a.segment

variable {js : List Joined} {g g' : Merger} {src : IrModule}

theorem Sourced.yielding (h : Sourced js text) (hp : (g.yielding src).Faithful) :
    Sourced (g.advance src js) ((g.yielding src).text text) := by
  refine ⟨hp.tidy h.tidy, hp.settled h.tidy h.settled, ?_⟩
  intro z hz
  rw [hp.refNames h.tidy] at hz
  obtain ⟨w, hw, rfl⟩ := mem_map.1 hz
  obtain ⟨j, hj, x, hx, rfl⟩ := h.source w hw
  exact ⟨_, andThen_mem_advance hj, x, hx, rfl⟩

theorem Linkable.sourced (h : Linkable src) (ha : src.globals.get? x = some a)
    (hla : a.linkage = .appending) :
    Sourced (g.advance src js) ((g.arrival src).text a.segment) := by
  have hp := faithful_arrival g h.legibleNames
  have hx := h.wellNamed.symbol?_eq_global.2 ha
  have ht : a.segment ∈ symbolTexts (.global a) := mem_cons_self
  have htidy := h.tidy _ (mem_symbolsInOrder_of_symbol? hx) _ ht
  refine ⟨hp.tidy htidy, hp.settled htidy (h.settled a (Table.mem_values.2 ⟨x, ha⟩) hla), ?_⟩
  intro z hz
  rw [hp.refNames htidy] at hz
  obtain ⟨w, hw, rfl⟩ := mem_map.1 hz
  exact ⟨_, arrival_mem_advance, w, h.refNames_mem hx ht hw, rfl⟩

theorem Sourced.join {first second name : String} (h : joinArrays first second name = .ok text)
    (h₁ : Sourced js first) (h₂ : Sourced js second) : Sourced js text := by
  obtain ⟨hs₁, hs₂⟩ := joinArrays_isOk.1 ⟨text, h⟩
  obtain ⟨-, ht, hf, hr⟩ :=
    joinArrays_references sigiled_globalReader.sighted h h₁.tidy.terminated h₂.tidy.terminated
    (framed_of_settled h₁.settled hs₁) (framed_of_settled h₂.settled hs₂)
  refine ⟨ht h₁.tidy h₂.tidy, settled_of_framed hf, ?_⟩
  intro z hz
  obtain ⟨w, hw, rfl⟩ := mem_map.1 hz
  rcases hr w hw with hw | hw
  · exact h₁.source _ (mem_map_of_mem hw)
  · exact h₂.source _ (mem_map_of_mem hw)

theorem Arrays.snoc (h : Arrays js g) (hs : Linkable src) (hm : g.merge src = .ok g') :
    Arrays (g.advance src js) g' := by
  have hall := forall_holds_merge (P := fun _ s => ∀ a, s = .global a → a.linkage = .appending →
    Sourced (g.advance src js) a.segment) ?_ ?_ ?_ hm
  · exact fun y a hy => hall y (.global a) hy a rfl
  · rintro x (f | b) y z hx - - a he hla
    · cases he
    · obtain rfl := Symbol.global.inj he
      refine (h hx ?_).yielding (faithful_yielding g hs.legibleNames)
      exact (Global.linkage_mapText (keepsLead_yielding g src) b).symm.trans hla
  · rintro x (f | b) z hx - a he hla
    · cases he
    · obtain rfl := Symbol.global.inj he
      exact hs.sourced hx ((Global.linkage_mapText (keepsLead_arrival g src) b).symm.trans hla)
  · rintro x a b segment ha hb hla hlb hj a' he -
    obtain rfl := Symbol.global.inj he
    exact (ha a rfl hla).join hj (hb b rfl hlb)

theorem trackAll_arrays {identifier : String} {modules : List IrModule}
    (hl : ∀ m ∈ modules, Linkable m)
    (h : trackAll identifier modules = .ok (g, js)) : Arrays js g :=
  trackAll_invariant (P := fun g js => Arrays js g) nofun Arrays.snoc hl h

/-! ## Names in the destination -/

namespace Composed

variable {j : Joined}

theorem name_ne_visible (h : Composed js g) (hj : j ∈ js) (hx : isLocalIn j.source x)
    (hy : (visible? g.dest y).isSome) : j.passage.name x ≠ y := by
  rintro rfl
  rw [visible?_eq_none_of_isLocalIn (h.isLocalIn_held hj hx)] at hy
  cases hy

theorem name_mem (h : Composed js g) (hj : j ∈ js) (hx : x ∈ j.source.symbolNames) :
    j.passage.name x ∈ g.dest.symbolNames := by
  obtain ⟨s, hs⟩ := Option.isSome_iff_exists.1 (mem_symbolNames.1 hx)
  cases hl : s.isLocal with
  | true => exact mem_symbolNames_of_symbol? (h.held j hj hs hl)
  | false =>
    obtain ⟨hn, hv⟩ := h.visible j hj (visible?_eq_some.2 ⟨hs, hl⟩)
    obtain ⟨r, hr⟩ := Option.isSome_iff_exists.1 hv
    rw [hn]
    exact mem_symbolNames_of_symbol? (visible?_eq_some.1 hr).1

theorem name_inj (h : Composed js g) (hj : j ∈ js) (hx : x ∈ j.source.symbolNames)
    (hy : y ∈ j.source.symbolNames) (he : j.passage.name x = j.passage.name y) : x = y := by
  obtain ⟨s, hs⟩ := Option.isSome_iff_exists.1 (mem_symbolNames.1 hx)
  obtain ⟨r, hr⟩ := Option.isSome_iff_exists.1 (mem_symbolNames.1 hy)
  cases hl : s.isLocal with
  | true =>
    have hxl := isLocalIn_iff.2 ⟨s, hs, hl⟩
    cases hl' : r.isLocal with
    | true => exact h.local_inj j hj hxl (isLocalIn_iff.2 ⟨r, hr, hl'⟩) he
    | false =>
      obtain ⟨hn, hv⟩ := h.visible j hj (visible?_eq_some.2 ⟨hr, hl'⟩)
      exact absurd (he.trans hn) (h.name_ne_visible hj hxl hv)
  | false =>
    obtain ⟨hn, hv⟩ := h.visible j hj (visible?_eq_some.2 ⟨hs, hl⟩)
    cases hl' : r.isLocal with
    | true =>
      exact absurd (he.symm.trans hn) (h.name_ne_visible hj (isLocalIn_iff.2 ⟨r, hr, hl'⟩) hv)
    | false => rw [← hn, he, (h.visible j hj (visible?_eq_some.2 ⟨hr, hl'⟩)).1]

/-- Every symbol of the destination that is no array comes from a module. -/
theorem origin (h : Composed js g) {r : Symbol} (hy : g.dest.symbol? y = some r)
    (hr : isArray r = false) : ∃ j ∈ js, ∃ x s,
      j.source.symbol? x = some s ∧ j.passage.name x = y ∧ j.passage.symbol s = r := by
  cases hl : r.isLocal with
  | true =>
    obtain ⟨j, hj, x, s, hs, -, hn, he⟩ := h.origin_local hy hl
    exact ⟨j, hj, x, s, hs, hn, he⟩
  | false =>
    rcases h.origin_visible (visible?_eq_some.2 ⟨hy, hl⟩) with ⟨j, hj, s, hs, he⟩ | ⟨ha, -⟩
    · exact ⟨j, hj, y, s, (visible?_eq_some.1 hs).1, (h.visible j hj hs).1, he⟩
    · rw [hr] at ha
      cases ha

theorem references (h : Composed js g) (hf : ∀ j ∈ js, j.passage.Faithful) (hj : j ∈ js)
    (hm : Linkable j.source) (hs : j.source.symbol? x = some s) :
    (j.passage.symbol s).references = s.references.map j.passage.name := by
  refine references_symbol (hf j hj) j.source.symbolNames (fun a ha b hb => h.name_inj hj ha hb) ?_
    (fun text ht => hm.tidy s (mem_symbolsInOrder_of_symbol? hs) text ht)
      (fun text ht y hy => hm.refNames_mem hs ht hy)
  rw [hm.wellNamed.name_eq hs]
  exact mem_symbolNames_of_symbol? hs

theorem closed (h : Composed js g) (hf : ∀ j ∈ js, j.passage.Faithful)
    (hm : ∀ j ∈ js, Linkable j.source) (ha : Arrays js g) : Closed g.dest := by
  refine (closed_iff h.wellNamed).2 fun y r hy z hz => ?_
  cases hr : isArray r with
  | true =>
    cases r with
    | function f => cases hr
    | global a =>
      obtain ⟨-, text, ht, hz⟩ := mem_references.1 hz
      obtain rfl := mem_singleton.1 ht
      obtain ⟨j, hj, x, hx, rfl⟩ := (ha (holds_of_symbol? hy) (of_decide_eq_true hr)).source z hz
      exact h.name_mem hj hx
  | false =>
    obtain ⟨j, hj, x, s, hs, -, rfl⟩ := h.origin hy hr
    rw [h.references hf hj (hm j hj) hs] at hz
    obtain ⟨x, hx, rfl⟩ := mem_map.1 hz
    exact h.name_mem hj ((hm j hj).closed s (mem_symbolsInOrder_of_symbol? hs) x hx)

end Composed

/-- Closed modules are joined into a closed module. Each module's local symbols stand there under
names that belong to no other symbol, its visible symbols under their own names, and each symbol
refers to what it referred to in its module. -/
theorem references_follow_symbols {identifier : String} {modules : List IrModule}
    (hl : ∀ m ∈ modules, Linkable m) (h : mergeAll identifier modules = .ok g) :
    ∃ js, trackAll identifier modules = .ok (g, js) ∧ js.map Joined.source = modules ∧
      Closed g.dest ∧
      (∀ j ∈ js, ∀ x s, j.source.symbol? x = some s → j.passage.name x ∈ g.dest.symbolNames ∧
        (s.isLocal = false → j.passage.name x = x) ∧
        (s.isLocal = true → g.dest.symbol? (j.passage.name x) = some (j.passage.symbol s) ∧
          ∀ i ∈ js, ∀ y, (visible? i.source y).isSome → j.passage.name x ≠ y) ∧
        (j.passage.symbol s).references = s.references.map j.passage.name) ∧
      (∀ j ∈ js, ∀ x x', isLocalIn j.source x = true → isLocalIn j.source x' = true →
        j.passage.name x = j.passage.name x' → x = x') ∧
      (js.Pairwise fun j j' => ∀ x x', isLocalIn j.source x = true → isLocalIn j'.source x' = true →
        j.passage.name x ≠ j'.passage.name x') ∧
      ∀ y r, g.dest.symbol? y = some r → isArray r = false →
        ∃ j ∈ js, ∃ x s, j.source.symbol? x = some s ∧
        j.passage.name x = y ∧ j.passage.symbol s = r ∧
        r.references = s.references.map j.passage.name := by
  obtain ⟨js, ht⟩ := exists_trackAll h
  have hsrc := sources_trackAll ht
  have hk := trackAll_composed (fun m hm => (hl m hm).wellNamed) ht
  have hf := trackAll_faithful (fun m hm => (hl m hm).legibleNames) ht
  have hm : ∀ j ∈ js, Linkable j.source := fun j hj => hl _ (hsrc ▸ mem_map_of_mem hj)
  refine ⟨js, ht, hsrc, hk.closed hf hm (trackAll_arrays hl ht), ?_, ?_, ?_, ?_⟩
  · intro j hj x s hs
    refine ⟨hk.name_mem hj (mem_symbolNames_of_symbol? hs), ?_, ?_,
      hk.references hf hj (hm j hj) hs⟩
    · intro hv
      exact (hk.visible j hj (visible?_eq_some.2 ⟨hs, hv⟩)).1
    · intro hloc
      refine ⟨hk.held j hj hs hloc, fun i hi y hy => ?_⟩
      obtain ⟨r, hr⟩ := Option.isSome_iff_exists.1 hy
      exact hk.name_ne_visible hj (isLocalIn_iff.2 ⟨s, hs, hloc⟩) (hk.visible i hi hr).2
  · intro j hj x x' hx hx'
    exact hk.local_inj j hj hx hx'
  · refine hk.local_apart.imp ?_
    intro j j' hne x x' hx hx'
    exact hne hx hx'
  · intro y r hy hr
    obtain ⟨j, hj, x, s, hs, hn, he⟩ := hk.origin hy hr
    exact ⟨j, hj, x, s, hs, hn, he, he ▸ hk.references hf hj (hm j hj) hs⟩

/-- Two modules with a local function of one name, which both put into one array and which a
function of theirs calls. The second has an array without elements as well. -/
def sampleClosed : List IrModule :=
  [{ identifier := "a"
     globals := .ofList
       [("ctors", ⟨"ctors", "appending global [1 x ptr] [ptr @init], section \"a\""⟩)]
     functions := .ofList
       [("init", ⟨"init", "define internal void @init()", [⟨"", [⟨"  call void @f()"⟩], none⟩]⟩),
        ("f", ⟨"f", "declare void @f()", []⟩)] },
   { identifier := "b"
     types := .ofList [("T", "type opaque")]
     globals := .ofList
       [("ctors", ⟨"ctors", "appending global [1 x ptr] [ptr @init]"⟩),
        ("none", ⟨"none", "appending global [0 x %T] zeroinitializer, section \"b\""⟩)]
     functions := .ofList
       [("f", ⟨"f", "define void @f()", [⟨"", [⟨"  call void @init()"⟩, ⟨"  ret void"⟩], none⟩]⟩),
        ("init", ⟨"init", "define internal void @init()", [⟨"", [⟨"  ret void"⟩], none⟩]⟩)] }]

set_option maxRecDepth 100000 in
theorem sampleClosed_linked :
    (∀ m ∈ sampleClosed, Linkable m) ∧ ∃ g js, mergeAll "out" sampleClosed = .ok g ∧
    trackAll "out" sampleClosed = .ok (g, js) ∧ Closed g.dest ∧
    js.map Joined.source = sampleClosed ∧
    (∀ j ∈ js, ∀ s, j.source.symbol? "init" = some s → s.isLocal = true →
      g.dest.symbol? (j.passage.name "init") = some (j.passage.symbol s)) ∧
    js.Pairwise fun j j' => isLocalIn j.source "init" = true → isLocalIn j'.source "init" = true →
      j.passage.name "init" ≠ j'.passage.name "init" := by
  have hread : (∀ m ∈ sampleClosed, Linkable m) ∧ (mergeAll "out" sampleClosed).isOk = true := by
    decide +kernel
  obtain ⟨hl, hok⟩ := hread
  obtain ⟨g, hg⟩ := exists_eq_ok hok
  obtain ⟨js, ht, hsrc, hc, hs, -, hp, -⟩ := references_follow_symbols hl hg
  refine ⟨hl, g, js, hg, ht, hc, hsrc, ?_, hp.imp fun hne => hne "init" "init"⟩
  intro j hj s hinit hloc
  exact ((hs j hj "init" s hinit).2.2.1 hloc).1

/-- An array without elements and with brackets in the name of its section. -/
def quotedBracket : IrModule :=
  { globals := .ofList
      [("x", ⟨"x", "appending global [1 x ptr] zeroinitializer, section \"s[@b]\""⟩)] }

set_option maxRecDepth 100000 in
/-- What stands in the brackets is taken for the elements, and the array of two such modules refers
to what is no symbol. -/
theorem quotedBracket_open :
    quotedBracket.WellNamed ∧ Closed quotedBracket ∧
      (∀ x ∈ quotedBracket.symbolNames, globalRefs (quoteName x "@") = [x]) ∧
      (∀ s ∈ symbolsInOrder quotedBracket, ∀ text ∈ symbolTexts s, Tidy globalReader text.toList) ∧
      (mergeAll "out" [quotedBracket, quotedBracket]).toOption.map
        (fun g => decide (Closed g.dest)) = some false := by
  decide +kernel

end CallAtlas.Link
