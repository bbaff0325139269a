import CallAtlas.Proofs.Link.Arrays
import CallAtlas.Proofs.Link.Step

/-!
# Joining one module after the other

`trackAll` follows a run of joins: beside the destination it keeps each module with the passage that
its texts and names went through. It fails or succeeds with the run itself, `mergeAll_eq`. What
holds of every run is `Composed`: local symbols stand in the destination under names of their own,
visible symbols keep their names, and apart from concatenated arrays every symbol of the destination
is one of a module after its passage.
-/

namespace CallAtlas.Link

open Ir IrModule List

variable {identifier x : String} {modules : List IrModule}

/-- A module that was joined, with what became of its texts and names. -/
structure Joined where
  source : IrModule
  passage : Passage

/-- The module after a further passage. -/
def Joined.andThen (j : Joined) (p : Passage) : Joined := { j with passage := j.passage.andThen p }

@[simp] theorem Joined.name_andThen (j : Joined) (p : Passage) (x : String) :
    (j.andThen p).passage.name x = p.name (j.passage.name x) := rfl

@[simp] theorem Joined.symbol_andThen (j : Joined) (p : Passage) (s : Symbol) :
    (j.andThen p).passage.symbol s = p.symbol (j.passage.symbol s) :=
  Passage.symbol_andThen j.passage p s

/-- The modules joined before and the incoming one, with what a join makes of them. -/
def Merger.advance (g : Merger) (src : IrModule) (js : List Joined) : List Joined :=
  js.map (·.andThen (g.yielding src)) ++ [⟨src, g.arrival src⟩]

/-- Joins one more module. -/
def track (s : Merger × List Joined) (src : IrModule) : Except Broken (Merger × List Joined) := do
  let g ← s.1.merge src
  pure (g, s.1.advance src s.2)

/-- Joins modules in order into a fresh destination and follows each of them. -/
def trackAll (identifier : String) (modules : List IrModule) :
    Except Broken (Merger × List Joined) :=
  modules.foldlM track (.empty identifier, [])

theorem foldlM_track (modules : List IrModule) (s : Merger × List Joined) :
    (modules.foldlM track s).map Prod.fst = modules.foldlM Merger.merge s.1 := by
  induction modules generalizing s with
  | nil => rfl
  | cons m modules ih =>
    rw [foldlM_cons, foldlM_cons]
    unfold track
    cases s.1.merge m with
    | error b => rfl
    | ok g => exact ih _

theorem mergeAll_eq (identifier : String) (modules : List IrModule) :
    mergeAll identifier modules = (trackAll identifier modules).map Prod.fst :=
  (foldlM_track modules (.empty identifier, [])).symm

variable {g : Merger} {j : Joined} {js : List Joined} {r : Symbol} {src : IrModule} {y : String}

theorem exists_trackAll (h : mergeAll identifier modules = .ok g) :
    ∃ js, trackAll identifier modules = .ok (g, js) := by
  rw [mergeAll_eq] at h
  obtain ⟨p, ht, rfl⟩ := map_eq_ok h
  exact ⟨p.2, ht⟩

/-- What holds of a fresh destination and is kept by every join holds after every run. -/
theorem trackAll_induction {P : List IrModule → Merger → List Joined → Prop}
    (nil : P [] (.empty identifier) [])
    (snoc : ∀ ms g js src g', trackAll identifier ms = .ok (g, js) → P ms g js →
      g.merge src = .ok g' → P (ms ++ [src]) g' (g.advance src js))
    (h : trackAll identifier modules = .ok (g, js)) : P modules g js := by
  induction modules using reverseRecOn generalizing g js with
  | nil =>
    obtain ⟨rfl, rfl⟩ := Prod.mk.inj (Except.ok.inj h)
    exact nil
  | append_singleton ms src ih =>
    rw [trackAll, foldlM_append] at h
    obtain ⟨s, hs, h⟩ := bind_eq_ok h
    obtain ⟨s', h, hs'⟩ := foldlM_cons_ok h
    obtain rfl := Except.ok.inj hs'
    obtain ⟨g', hg, h⟩ := bind_eq_ok h
    obtain ⟨rfl, rfl⟩ := Prod.mk.inj (Except.ok.inj h)
    exact snoc ms s.1 s.2 src g' hs (ih hs) hg

theorem sources_advance (g : Merger) (src : IrModule) (js : List Joined) :
    (g.advance src js).map Joined.source = js.map Joined.source ++ [src] := by
  rw [Merger.advance, map_append, map_map]
  rfl

theorem forall_mem_advance {P : IrModule → Prop} :
    (∀ j ∈ g.advance src js, P j.source) ↔ (∀ j ∈ js, P j.source) ∧ P src := by
  have h := forall_mem_map (f := Joined.source) (l := g.advance src js) (P := P)
  rw [sources_advance, forall_mem_append, forall_mem_singleton, forall_mem_map] at h
  exact h.symm

theorem sources_trackAll (h : trackAll identifier modules = .ok (g, js)) :
    js.map Joined.source = modules := by
  refine trackAll_induction (P := fun ms _ js => js.map Joined.source = ms) rfl ?_ h
  intro ms g js src g' _ ih _
  rw [sources_advance, ih]

theorem mem_advance (h : j ∈ g.advance src js) :
    (∃ i ∈ js, j = i.andThen (g.yielding src)) ∨ j = ⟨src, g.arrival src⟩ := by
  rcases mem_append.1 h with h | h
  · obtain ⟨i, hi, rfl⟩ := mem_map.1 h
    exact .inl ⟨i, hi, rfl⟩
  · exact .inr (mem_singleton.1 h)

theorem andThen_mem_advance (h : j ∈ js) : j.andThen (g.yielding src) ∈ g.advance src js :=
  mem_append_left _ (mem_map_of_mem h)

theorem arrival_mem_advance : (⟨src, g.arrival src⟩ : Joined) ∈ g.advance src js :=
  mem_append_right _ mem_cons_self

theorem trackAll_invariant {Q : IrModule → Prop} {P : Merger → List Joined → Prop}
    (empty : P (.empty identifier) [])
    (snoc : ∀ {g js src g'}, P g js → Q src → g.merge src = .ok g' → P g' (g.advance src js))
    (hq : ∀ m ∈ modules, Q m) (h : trackAll identifier modules = .ok (g, js)) : P g js := by
  revert hq
  refine trackAll_induction (P := fun ms g js => (∀ m ∈ ms, Q m) → P g js) (fun _ => empty) ?_ h
  intro ms g js src g' _ ih hm hq
  obtain ⟨hms, hsrc⟩ := forall_mem_append.1 hq
  exact snoc (ih hms) (hsrc src mem_cons_self) hm

theorem trackAll_passages {Q : IrModule → Prop} {P : Passage → Prop}
    (yielding : ∀ (g : Merger) src (p : Passage), Q src → P p → P (p.andThen (g.yielding src)))
    (arrival : ∀ (g : Merger) src, Q src → P (g.arrival src)) (hq : ∀ m ∈ modules, Q m)
    (h : trackAll identifier modules = .ok (g, js)) : ∀ j ∈ js, P j.passage := by
  refine trackAll_invariant (P := fun _ js => ∀ j ∈ js, P j.passage) nofun ?_ hq h
  intro g js src g' hjs hsrc _ j hj
  rcases mem_advance hj with ⟨i, hi, rfl⟩ | rfl
  · exact yielding g src _ hsrc (hjs i hi)
  · exact arrival g src hsrc

/-! ## What holds of every run -/

/-- Whether the symbol is an array that is joined with its namesakes. -/
def isArray : Symbol → Bool
  | .function _ => false
  | .global a => a.linkage = .appending

theorem isArray_relabel {text name : String → String} (ht : KeepsLead text) (s : Symbol) :
    isArray (s.relabel text name) = isArray s := by
  cases s with
  | function f => rfl
  | global a =>
    exact congrArg (fun l => decide (l = Linkage.appending)) (Global.linkage_mapText ht a)

/-- The symbols of a destination and the modules that it was joined from. -/
structure Composed (js : List Joined) (g : Merger) : Prop where
  wellNamed : g.dest.WellNamed
  source : ∀ j ∈ js, j.source.WellNamed ∧ KeepsLead j.passage.text
  /-- Local symbols are held. -/
  held : ∀ j ∈ js, ∀ {x s}, j.source.symbol? x = some s → s.isLocal →
    g.dest.symbol? (j.passage.name x) = some (j.passage.symbol s)
  /-- Visible symbols keep their names. -/
  visible : ∀ j ∈ js, ∀ {x s}, visible? j.source x = some s → j.passage.name x = x ∧
    (visible? g.dest x).isSome
  /-- Every local symbol of the destination comes from a module. -/
  origin_local : ∀ {y r}, g.dest.symbol? y = some r → r.isLocal → ∃ j ∈ js, ∃ x s,
    j.source.symbol? x = some s ∧ s.isLocal ∧ j.passage.name x = y ∧ j.passage.symbol s = r
  /-- Every visible symbol of the destination comes from a module or is an array. -/
  origin_visible : ∀ {y r}, visible? g.dest y = some r →
    (∃ j ∈ js, ∃ s, visible? j.source y = some s ∧ j.passage.symbol s = r) ∨
      isArray r ∧ ∃ j ∈ js, (visible? j.source y).isSome
  /-- A module keeps its local symbols apart. -/
  local_inj : ∀ j ∈ js, ∀ {x x'}, isLocalIn j.source x → isLocalIn j.source x' →
    j.passage.name x = j.passage.name x' → x = x'
  /-- Two modules keep their local symbols apart. -/
  local_apart : js.Pairwise fun j j' => ∀ {x x'}, isLocalIn j.source x → isLocalIn j'.source x' →
    j.passage.name x ≠ j'.passage.name x'

theorem Composed.empty (identifier : String) : Composed [] (.empty identifier) :=
  ⟨.empty identifier, nofun, nofun, nofun, nofun, nofun, nofun, .nil⟩

variable {js : List Joined} {g g' : Merger} {src : IrModule}

theorem isLocalIn_iff {m : IrModule} : isLocalIn m x ↔ ∃ s, m.symbol? x = some s ∧ s.isLocal := by
  unfold isLocalIn
  cases m.symbol? x <;> simp

theorem Settles.visible {existing : Option Symbol} {sym : Symbol} (h : Settles existing sym r)
    (he : ∀ s, existing = some s → s.isLocal = false) (hs : sym.isLocal = false) :
    r.isLocal = false := by
  rcases h.cases with ⟨-, h⟩ | ⟨-, rfl⟩ | ⟨a, b, segment, hv, hj, rfl⟩
  · exact he r h
  · exact hs
  · show ({ a with segment } : Global).linkage.isLocal = false
    rw [linkage_joinArrays hj, (verdict_concat hv).2.2.1]
    rfl

theorem yielding_isLocal (hd : g.dest.WellNamed) {s : Symbol} (h : g.dest.symbol? x = some s) :
    ((g.yielding src).symbol s).isLocal = s.isLocal :=
  Symbol.isLocal_relabel (keepsLead_yielding g src) (hd.headed h)

theorem arrival_isLocal (hs : src.WellNamed) {s : Symbol} (h : src.symbol? x = some s) :
    ((g.arrival src).symbol s).isLocal = s.isLocal :=
  Symbol.isLocal_relabel (keepsLead_arrival g src) (hs.headed h)

theorem yielding_visible (hd : g.dest.WellNamed) {s : Symbol} (h : visible? g.dest x = some s) :
    ((g.yielding src).symbol s).isLocal = false := by
  obtain ⟨h, hl⟩ := visible?_eq_some.1 h
  exact (yielding_isLocal hd h).trans hl

theorem arrival_visible (hs : src.WellNamed) {s : Symbol} (h : visible? src x = some s) :
    ((g.arrival src).symbol s).isLocal = false := by
  obtain ⟨h, hl⟩ := visible?_eq_some.1 h
  exact (arrival_isLocal hs h).trans hl

theorem MergeStep.visible (h : MergeStep g src g') (hd : g.dest.WellNamed) (hs : src.WellNamed)
    (hx : (visible? g.dest x).isSome ∨ (visible? src x).isSome) : (visible? g'.dest x).isSome := by
  cases hv : visible? src x with
  | none =>
    rw [hv] at hx
    obtain ⟨e, he⟩ := Option.isSome_iff_exists.1 (hx.resolve_right (by simp))
    rw [visible?_eq_some.2 ⟨(h.stays he hv).1, yielding_visible hd he⟩]
    rfl
  | some s =>
    obtain ⟨r, hr, hx', -⟩ := h.meets hv
    have hl : r.isLocal = false := by
      refine hr.visible (fun s' hs' => ?_) (arrival_visible hs hv)
      obtain ⟨e, he, rfl⟩ := Option.map_eq_some_iff.1 hs'
      exact yielding_visible hd he
    rw [visible?_eq_some.2 ⟨hx', hl⟩]
    rfl

/-- A visible symbol of the destination was there before, came with the module, or is an array of
both. -/
theorem MergeStep.visible_cases (h : MergeStep g src g') (hd : g.dest.WellNamed)
    (hs : src.WellNamed) (hy : visible? g'.dest y = some r) :
    (∃ e, visible? g.dest y = some e ∧ (g.yielding src).symbol e = r) ∨
      (∃ s, visible? src y = some s ∧ (g.arrival src).symbol s = r) ∨
      ∃ e s a b segment, visible? g.dest y = some e ∧ visible? src y = some s ∧
        (g.yielding src).symbol e = .global a ∧ (g.arrival src).symbol s = .global b ∧
        a.linkage = .appending ∧
        b.linkage = .appending ∧ joinArrays a.segment b.segment b.name = .ok segment ∧
        r = .global { a with segment } := by
  obtain ⟨hy, hl⟩ := visible?_eq_some.1 hy
  cases hv : visible? src y with
  | none =>
    rcases h.cover hy with ⟨x, s, hx, hsl, -, rfl⟩ | ⟨x, s, hx, hsl, -, rfl⟩ | he | he
    · rw [yielding_isLocal hd hx, hsl] at hl
      cases hl
    · rw [arrival_isLocal hs hx, hsl] at hl
      cases hl
    · obtain ⟨e, he⟩ := Option.isSome_iff_exists.1 he
      have hr := (h.stays he hv).1
      rw [hy] at hr
      exact .inl ⟨e, he, (Option.some.inj hr).symm⟩
    · rw [hv] at he
      cases he
  | some s =>
    obtain ⟨r', hr, hy', -⟩ := h.meets hv
    rw [hy] at hy'
    obtain rfl := Option.some.inj hy'
    rcases hr.cases with ⟨-, hr⟩ | ⟨-, rfl⟩ | ⟨a, b, segment, hvd, hj, rfl⟩
    · exact .inl (Option.map_eq_some_iff.1 hr)
    · exact .inr (.inl ⟨s, rfl, rfl⟩)
    · obtain ⟨he, hb, hla, hlb⟩ := verdict_concat hvd
      obtain ⟨e, he, ha⟩ := Option.map_eq_some_iff.1 he
      rw [hb] at hj
      exact .inr (.inr ⟨e, s, a, b, segment, he, rfl, ha, hb, hla, hlb, hj, rfl⟩)

namespace Composed

theorem isLocalIn_held (h : Composed js g) (hj : j ∈ js) (hx : isLocalIn j.source x) :
    isLocalIn g.dest (j.passage.name x) := by
  obtain ⟨s, hs, hl⟩ := isLocalIn_iff.1 hx
  obtain ⟨hw, ht⟩ := h.source j hj
  refine isLocalIn_iff.2 ⟨_, h.held j hj hs hl, ?_⟩
  exact (Symbol.isLocal_relabel ht (hw.headed hs)).trans hl

theorem mem_held (h : Composed js g) (hj : j ∈ js) (hx : isLocalIn j.source x) :
    j.passage.name x ∈ g.dest.symbolNames := by
  obtain ⟨s, hs, hl⟩ := isLocalIn_iff.1 hx
  exact mem_symbolNames_of_symbol? (h.held j hj hs hl)

theorem yielding_apart (h : Composed js g) {j' : Joined} (hj : j ∈ js) (hj' : j' ∈ js) {x' : String}
    (hx : isLocalIn j.source x) (hx' : isLocalIn j'.source x')
    (he : (g.yielding src).name (j.passage.name x) = (g.yielding src).name (j'.passage.name x')) :
    j.passage.name x = j'.passage.name x' :=
  separates_dest g src _ (h.mem_held hj hx) _ (h.mem_held hj' hx') he

theorem origin_yielding (h : Composed js g) {e : Symbol} (he : visible? g.dest y = some e) :
    (∃ j ∈ js, ∃ s, visible? j.source y = some s ∧
        (j.passage.andThen (g.yielding src)).symbol s = (g.yielding src).symbol e) ∨
      isArray ((g.yielding src).symbol e) ∧ ∃ j ∈ js, (visible? j.source y).isSome := by
  rcases h.origin_visible he with ⟨j, hj, s, hs, rfl⟩ | ⟨hl, hj⟩
  · exact .inl ⟨j, hj, s, hs, Passage.symbol_andThen _ _ _⟩
  · refine .inr ⟨?_, hj⟩
    rw [Passage.symbol, isArray_relabel (keepsLead_yielding g src)]
    exact hl

theorem origin_local_snoc (h : Composed js g) (hs : src.WellNamed) (hm : MergeStep g src g')
    (hy : g'.dest.symbol? y = some r) (hl : r.isLocal) : ∃ j ∈ g.advance src js, ∃ x s,
      j.source.symbol? x = some s ∧ s.isLocal ∧ j.passage.name x = y ∧ j.passage.symbol s = r := by
  rcases hm.cover hy with ⟨x, s, hx, hsl, rfl, rfl⟩ | ⟨x, s, hx, hsl, hn, he⟩ | hv
  · obtain ⟨j, hj, x, s, hs', hsl', rfl, rfl⟩ := h.origin_local hx hsl
    exact ⟨_, andThen_mem_advance hj, x, s, hs', hsl', rfl, Passage.symbol_andThen _ _ _⟩
  · exact ⟨_, arrival_mem_advance, x, s, hx, hsl, hn, he⟩
  · obtain ⟨r', hr'⟩ := Option.isSome_iff_exists.1 (hm.visible h.wellNamed hs hv)
    obtain ⟨hy', hl'⟩ := visible?_eq_some.1 hr'
    rw [hy] at hy'
    rw [← Option.some.inj hy', hl] at hl'
    cases hl'

theorem origin_visible_snoc (h : Composed js g) (hs : src.WellNamed) (hm : MergeStep g src g')
    (hy : visible? g'.dest y = some r) :
    (∃ j ∈ g.advance src js, ∃ s, visible? j.source y = some s ∧ j.passage.symbol s = r) ∨
      isArray r ∧ ∃ j ∈ g.advance src js, (visible? j.source y).isSome := by
  rcases hm.visible_cases h.wellNamed hs hy with
    ⟨e, he, rfl⟩ | ⟨s, hv, rfl⟩ | ⟨e, s, a, b, segment, he, hv, ha, hb, hla, hlb, hj, rfl⟩
  · rcases h.origin_yielding he with ⟨j, hj, s, hs', hr⟩ | ⟨ha, j, hj, hs'⟩
    · exact .inl ⟨_, andThen_mem_advance hj, s, hs', hr⟩
    · exact .inr ⟨ha, _, andThen_mem_advance hj, hs'⟩
  · exact .inl ⟨_, arrival_mem_advance, s, hv, rfl⟩
  · refine .inr ⟨?_, _, arrival_mem_advance, by rw [hv]; rfl⟩
    exact decide_eq_true ((linkage_joinArrays hj).trans hla)

theorem local_apart_snoc (h : Composed js g) (hs : src.WellNamed) :
    (g.advance src js).Pairwise fun j j' => ∀ {x x'}, isLocalIn j.source x →
      isLocalIn j'.source x' → j.passage.name x ≠ j'.passage.name x' := by
  refine pairwise_append.2 ⟨?_, pairwise_singleton _ _, ?_⟩
  · refine pairwise_map.2 (h.local_apart.imp_of_mem ?_)
    intro j j' hj hj' hne x x' hx hx' he
    rw [Joined.name_andThen, Joined.name_andThen] at he
    exact hne hx hx' (h.yielding_apart hj hj' hx hx' he)
  · intro j hj j' hj' x x' hx hx' he
    obtain ⟨i, hi, rfl⟩ := mem_map.1 hj
    obtain rfl := mem_singleton.1 hj'
    obtain ⟨s, hs', -⟩ := isLocalIn_iff.1 hx'
    rw [Joined.name_andThen] at he
    have hn := (shared_visible hs (h.mem_held hi hx) (mem_symbolNames_of_symbol? hs') he).2.1
    rw [h.isLocalIn_held hi hx] at hn
    cases hn

/-- Every join keeps what holds of the run. -/
theorem snoc (h : Composed js g) (hs : src.WellNamed) (hm : g.merge src = .ok g') :
    Composed (g.advance src js) g' := by
  have hm := merge_step h.wellNamed hs hm
  refine ⟨hm.wellNamed, ?_, ?_, ?_, h.origin_local_snoc hs hm, h.origin_visible_snoc hs hm, ?_,
    h.local_apart_snoc hs⟩
  · intro j hj
    rcases mem_advance hj with ⟨i, hi, rfl⟩ | rfl
    · exact ⟨(h.source i hi).1, (keepsLead_yielding g src).comp (h.source i hi).2⟩
    · exact ⟨hs, keepsLead_arrival g src⟩
  · intro j hj x s hx hl
    rcases mem_advance hj with ⟨i, hi, rfl⟩ | rfl
    · have hl' : (i.passage.symbol s).isLocal :=
        (Symbol.isLocal_relabel (h.source i hi).2 ((h.source i hi).1.headed hx)).trans hl
      rw [Joined.name_andThen, Joined.symbol_andThen]
      exact hm.dest_local (h.held i hi hx hl) hl'
    · exact hm.source_local hx hl
  · intro j hj x s hx
    rcases mem_advance hj with ⟨i, hi, rfl⟩ | rfl
    · obtain ⟨hn, hv⟩ := h.visible i hi hx
      obtain ⟨e, he⟩ := Option.isSome_iff_exists.1 hv
      refine ⟨?_, hm.visible h.wellNamed hs (.inl hv)⟩
      rw [Joined.name_andThen, hn]
      exact yielding_name_of_visible? he
    · exact ⟨arrival_name_of_visible? hs hx, hm.visible h.wellNamed hs (.inr (by rw [hx]; rfl))⟩
  · intro j hj x x' hx hx' he
    rcases mem_advance hj with ⟨i, hi, rfl⟩ | rfl
    · rw [Joined.name_andThen, Joined.name_andThen] at he
      exact h.local_inj i hi hx hx' (h.yielding_apart hi hi hx hx' he)
    · obtain ⟨s, hs1, -⟩ := isLocalIn_iff.1 hx
      obtain ⟨s', hs2, -⟩ := isLocalIn_iff.1 hx'
      rw [arrival_name] at he
      refine separates_source g src x ?_ x' ?_ he
      · exact (mem_symbolNames_retyped g src).2 (mem_symbolNames_of_symbol? hs1)
      · exact (mem_symbolNames_retyped g src).2 (mem_symbolNames_of_symbol? hs2)

end Composed

theorem trackAll_composed
    (hw : ∀ m ∈ modules, m.WellNamed) (h : trackAll identifier modules = .ok (g, js)) :
    Composed js g := by
  exact trackAll_invariant (P := fun g js => Composed js g) (.empty identifier) Composed.snoc hw h

end CallAtlas.Link
