import CallAtlas.Proofs.Link.Run

/-!
# Which definition a name gets

Of the visible symbols of one name, in the order in which their modules are joined, the strong
definition counts, else the first overridable definition, else the first declaration: `resolution`.
`Resolved` says that this is what the destination holds after a run, under the texts that the joins
give it, and that the module it came from is on record. Two strong definitions of one name are the
only reason why symbols cannot be joined, and the error names both modules.
-/

namespace CallAtlas.IrModule

open Ir

/-- No global value is an array that is joined with its namesakes. -/
def NoAppending (m : IrModule) : Prop := ∀ g ∈ m.globals.values, g.linkage ≠ .appending

/-- The kind word of every global value stands before any reference. -/
def KindFirst (m : IrModule) : Prop := ∀ g ∈ m.globals.values, g.kindFirst

instance (m : IrModule) : Decidable m.NoAppending :=
  inferInstanceAs (Decidable (∀ g ∈ m.globals.values, _))

instance (m : IrModule) : Decidable m.KindFirst :=
  inferInstanceAs (Decidable (∀ g ∈ m.globals.values, _))

end CallAtlas.IrModule

namespace CallAtlas.Link

open Ir IrModule List

variable {b : Broken} {existing : Option Symbol} {m : IrModule} {s sym : Symbol} {x : String}

/-! ## The definition that counts -/

/-- A definition that yields to no other. -/
def isStrong (s : Symbol) : Bool := !s.isDeclaration && !s.linkage.isOverridable

def isWeak (s : Symbol) : Bool := !s.isDeclaration && s.linkage.isOverridable

/-- A visible symbol of a module that was joined. -/
structure Occurrence where
  joined : Joined
  symbol : Symbol

variable {e o : Occurrence} {os : List Occurrence}

def Occurrence.held (o : Occurrence) : Symbol := o.joined.passage.symbol o.symbol

/-- The visible symbols of a name, in the order in which their modules were joined. -/
def occurrences (js : List Joined) (x : String) : List Occurrence :=
  js.filterMap fun j => (visible? j.source x).map (⟨j, ·⟩)

/-- The symbol that counts: the strong definition, else the first overridable one, else the first
declaration. -/
def resolution (os : List Occurrence) : Option Occurrence :=
  (os.find? (isStrong ·.symbol)).or
    ((os.find? (isWeak ·.symbol)).or (os.find? (·.symbol.isDeclaration)))

theorem resolution_mem (h : resolution os = some o) : o ∈ os := by
  unfold resolution at h
  rw [Option.or_eq_some_iff, Option.or_eq_some_iff] at h
  rcases h with h | ⟨-, h | ⟨-, h⟩⟩
  · exact mem_of_find?_eq_some h
  · exact mem_of_find?_eq_some h
  · exact mem_of_find?_eq_some h

theorem resolution_eq_none : resolution os = none ↔ os = [] := by
  constructor
  · intro h
    unfold resolution at h
    rw [Option.or_eq_none_iff, Option.or_eq_none_iff] at h
    obtain ⟨hs, hw, hd⟩ := h
    rw [find?_eq_none] at hs hw hd
    refine eq_nil_iff_forall_not_mem.2 fun o ho => ?_
    have h1 := hs o ho
    have h2 := hw o ho
    have h3 := hd o ho
    simp only [isStrong, isWeak] at h1 h2 h3
    cases o.symbol.isDeclaration <;> cases o.symbol.linkage.isOverridable <;> simp_all
  · rintro rfl
    rfl

theorem isStrong_resolution {o' : Occurrence} (ho : o' ∈ os) (hs : isStrong o'.symbol)
    (h : resolution os = some o) : isStrong o.symbol := by
  unfold resolution at h
  cases hf : os.find? (isStrong ·.symbol) with
  | none => exact absurd hs (find?_eq_none.1 hf o' ho)
  | some e =>
    rw [hf] at h
    obtain rfl := Option.some.inj h
    have he := find?_some hf
    exact he

theorem find?_snoc (p : Occurrence → Bool) (os : List Occurrence) (o : Occurrence) :
    (os ++ [o]).find? p = (os.find? p).or (if p o then some o else none) := by
  by_cases h : p o
  · simp
  · simp

/-- One more symbol takes the place of the one that counts if that is a declaration and it is not,
or if that can be overridden and it cannot. -/
theorem resolution_snoc (h : resolution os = some e)
    (hn : isStrong e.symbol = false ∨ isStrong o.symbol = false) :
    resolution (os ++ [o]) =
      if o.symbol.isDeclaration then some e
      else if e.symbol.isDeclaration then some o else if o.symbol.linkage.isOverridable then some e
      else some o := by
  unfold resolution at h ⊢
  rw [find?_snoc, find?_snoc]
  simp only [isStrong, isWeak] at hn h ⊢
  cases hS : os.find? (fun o => !o.symbol.isDeclaration && !o.symbol.linkage.isOverridable) with
  | some e' =>
    -- a strong definition counts, and the new symbol is none
    have he := find?_some hS
    rw [hS] at h
    obtain rfl : e' = e := Option.some.inj h
    by_cases hd : o.symbol.isDeclaration = true <;>
      by_cases hw : o.symbol.linkage.isOverridable = true <;> simp_all
  | none =>
    rw [hS, Option.none_or] at h
    cases hW : os.find? (fun o => !o.symbol.isDeclaration && o.symbol.linkage.isOverridable) with
    | some e' =>
      have he := find?_some hW
      rw [hW] at h
      by_cases hd : o.symbol.isDeclaration = true <;>
      by_cases hw : o.symbol.linkage.isOverridable = true <;> simp_all
    | none =>
      rw [hW] at h
      have he := find?_some h
      by_cases hd : o.symbol.isDeclaration = true <;>
      by_cases hw : o.symbol.linkage.isOverridable = true <;> simp_all

/-! ## What the classes of symbols decide -/

theorem isStrong_relabel {text name : String → String} (ht : KeepsLead text) (hh : s.Headed)
    (hk : s.kindFirst) : isStrong (s.relabel text name) = isStrong s := by
  unfold isStrong
  rw [Symbol.isDeclaration_relabel ht hk, Symbol.linkage_relabel ht hh]

theorem verdict_eq_clash (hb : ∀ e, existing = some e → bothAppending? e sym = none) :
    verdict existing sym = .clash ↔ ∃ e, existing = some e ∧ isStrong e ∧ isStrong sym := by
  cases existing with
  | none => simp [verdict]
  | some e =>
    simp only [verdict, hb e rfl, isStrong, Option.some.injEq, exists_eq_left']
    cases sym.isDeclaration <;> cases e.isDeclaration <;> cases sym.linkage.isOverridable <;>
      cases e.linkage.isOverridable <;> simp

theorem verdict_ne_concat {a b : Global}
    (hb : ∀ e, existing = some e → bothAppending? e sym = none) :
    verdict existing sym ≠ .concat a b := by
  intro h
  obtain ⟨rfl, rfl, ha, hb'⟩ := verdict_concat h
  have := hb (.global a) rfl
  simp [bothAppending?, ha, hb'] at this

/-- A module without arrays that are joined, with its symbols under their own names and the kind
word of each global value before any reference. -/
@[mk_iff] structure Plain (m : IrModule) : Prop where
  wellNamed : m.WellNamed
  noAppending : m.NoAppending
  kindFirst : m.KindFirst

instance (m : IrModule) : Decidable (Plain m) := decidable_of_iff' _ (plain_iff ..)

theorem Plain.kindFirst_symbol (hm : Plain m) (h : m.symbol? x = some s) : s.kindFirst := by
  cases s with
  | function f => rfl
  | global g => exact hm.kindFirst g (Table.mem_values.2 ⟨x, holds_of_symbol? h⟩)

theorem bothAppending?_eq_none {existing : Symbol}
    (h : ∀ b, sym = .global b → b.linkage ≠ .appending) :
    bothAppending? existing sym = none := by
  cases hb : bothAppending? existing sym with
  | none => rfl
  | some p =>
    obtain ⟨-, hs, -, hl⟩ := bothAppending?_eq_some hb
    exact absurd hl (h p.2 hs)

theorem Plain.arrival_not_appending (hm : Plain m)
    (h : m.symbol? x = some s) {p : Passage} (hp : KeepsLead p.text) (e : Symbol) :
    bothAppending? e (p.symbol s) = none := by
  refine bothAppending?_eq_none ?_
  intro b hb
  cases s with
  | function f => cases hb
  | global a =>
    rw [← Symbol.global.inj hb]
    refine Eq.trans_ne (Symbol.linkage_relabel (s := .global a) hp trivial) ?_
    exact hm.noAppending a (Table.mem_values.2 ⟨x, holds_of_symbol? h⟩)

/-! ## What holds of every run -/

/-- The occurrence after a further passage of its module. -/
def Occurrence.andThen (o : Occurrence) (p : Passage) : Occurrence :=
  { o with joined := o.joined.andThen p }

theorem Occurrence.held_andThen (o : Occurrence) (p : Passage) :
    (o.andThen p).held = p.symbol o.held :=
  Joined.symbol_andThen o.joined p o.symbol

theorem resolution_map_andThen (os : List Occurrence) (p : Passage) :
    resolution (os.map (·.andThen p)) = (resolution os).map (·.andThen p) := by
  unfold resolution
  rw [find?_map, find?_map, find?_map, Option.map_or, Option.map_or]
  rfl

variable {js : List Joined} {g g' : Merger} {src : IrModule}

theorem occurrences_advance (g : Merger) (src : IrModule) (js : List Joined) (x : String) :
    occurrences (g.advance src js) x = (occurrences js x).map (·.andThen (g.yielding src)) ++
      ((visible? src x).map fun s => ⟨⟨src, g.arrival src⟩, s⟩).toList := by
  unfold occurrences Merger.advance
  rw [filterMap_append, filterMap_map, map_filterMap]
  simp only [Option.map_map]
  rfl

theorem mem_occurrences (h : o ∈ occurrences js x) :
    o.joined ∈ js ∧ visible? o.joined.source x = some o.symbol := by
  obtain ⟨j, hj, ho⟩ := mem_filterMap.1 h
  obtain ⟨s, hs, rfl⟩ := Option.map_eq_some_iff.1 ho
  exact ⟨hj, hs⟩

/-- The destination holds the symbol that counts, its module is on record, and no two strong
definitions came. -/
structure Resolved (js : List Joined) (g : Merger) (x : String) : Prop where
  held : visible? g.dest x = (resolution (occurrences js x)).map Occurrence.held
  definer : ∀ o, resolution (occurrences js x) = some o → o.symbol.isDeclaration = false →
    g.definer.get? x = some o.joined.source.identifier
  unique : ((occurrences js x).filter (isStrong ·.symbol)).length ≤ 1

/-- A passage changes neither whether a symbol is a declaration nor its linkage. -/
theorem held_class (h : Composed js g) (hp : ∀ j ∈ js, Plain j.source) (ho : o ∈ occurrences js x) :
    o.held.isDeclaration = o.symbol.isDeclaration ∧ o.held.linkage = o.symbol.linkage ∧
    o.held.isLocal = false := by
  obtain ⟨hj, hs⟩ := mem_occurrences ho
  obtain ⟨hs, hl⟩ := visible?_eq_some.1 hs
  obtain ⟨hw, ht⟩ := h.source _ hj
  refine ⟨Symbol.isDeclaration_relabel ht ((hp _ hj).kindFirst_symbol hs), ?_, ?_⟩
  · exact Symbol.linkage_relabel ht (hw.headed hs)
  · exact (Symbol.isLocal_relabel ht (hw.headed hs)).trans hl

theorem MergeStep.visible?_stays (h : MergeStep g src g') (hd : g.dest.WellNamed)
    (hs : src.WellNamed)
    (hv : visible? src x = none) :
    visible? g'.dest x = (visible? g.dest x).map (g.yielding src).symbol := by
  cases he : visible? g.dest x with
  | some e => exact visible?_eq_some.2 ⟨(h.stays he hv).1, yielding_visible hd he⟩
  | none =>
    refine Option.eq_none_iff_forall_not_mem.2 fun r hr => ?_
    rcases h.visible_cases hd hs hr with ⟨e, he', -⟩ | ⟨s, hv', -⟩ | ⟨e, s, a, b, segment, he', -⟩
    · cases he.symm.trans he'
    · cases hv.symm.trans hv'
    · cases he.symm.trans he'

theorem verdict_some {e : Symbol} (hb : bothAppending? e sym = none) :
    verdict (some e) sym = if sym.isDeclaration then .keep else if e.isDeclaration then .take
      else if sym.linkage.isOverridable then .keep else if e.linkage.isOverridable then .take
      else .clash := by
  simp only [verdict, hb]

theorem settles_resolution {r : Symbol} (he : resolution os = some e)
    (hed : e.held.isDeclaration = e.symbol.isDeclaration) (hel : e.held.linkage = e.symbol.linkage)
    (hod : o.held.isDeclaration = o.symbol.isDeclaration) (hol : o.held.linkage = o.symbol.linkage)
    (hb : bothAppending? e.held o.held = none) (h : Settles (some e.held) o.held r) :
    (isStrong e.symbol = false ∨ isStrong o.symbol = false) ∧
      ((resolution (os ++ [o]) = some e ∧ r = e.held ∧ defines (some e.held) o.held = false) ∨
        (resolution (os ++ [o]) = some o ∧ r = o.held ∧
          defines (some e.held) o.held = !o.symbol.isDeclaration)) := by
  have hv := verdict_some hb
  rw [hed, hel, hod, hol] at hv
  have hn : isStrong e.symbol = false ∨ isStrong o.symbol = false := by
    by_contra hn
    simp only [isStrong, not_or, Bool.not_eq_false, Bool.and_eq_true, Bool.not_eq_true'] at hn
    simp [Settles, hv, hn] at h
  refine ⟨hn, ?_⟩
  rw [resolution_snoc he hn]
  rcases h.cases with ⟨hk, h⟩ | ⟨hk, rfl⟩ | ⟨a, b, segment, hk, -⟩
  · refine .inl ⟨?_, (Option.some.inj h).symm, by rw [defines, hk]⟩
    rw [hk] at hv
    split_ifs at hv ⊢ <;> rfl
  · refine .inr ⟨?_, rfl, by rw [defines, hk, hod]⟩
    rw [hk] at hv
    split_ifs at hv ⊢ <;> rfl
  · rw [hk] at hv
    split_ifs at hv

theorem filter_andThen (os : List Occurrence) (p : Passage) :
    ((os.map (·.andThen p)).filter (isStrong ·.symbol)).length =
      (os.filter (isStrong ·.symbol)).length := by
  rw [filter_map, length_map]
  rfl

namespace Resolved

theorem stays (hr : Resolved js g x) (h : Composed js g) (hs : src.WellNamed)
    (hm : MergeStep g src g') (hv : visible? src x = none) : Resolved (g.advance src js) g' x := by
  have ho : occurrences (g.advance src js) x =
      (occurrences js x).map (·.andThen (g.yielding src)) := by
    rw [occurrences_advance, hv]
    simp
  refine ⟨?_, ?_, ?_⟩
  · rw [hm.visible?_stays h.wellNamed hs hv, hr.held, ho, resolution_map_andThen, Option.map_map,
      Option.map_map]
    congr 1
    funext o
    exact (Occurrence.held_andThen o _).symm
  · intro o hres hdecl
    rw [ho, resolution_map_andThen] at hres
    obtain ⟨o, ho', rfl⟩ := Option.map_eq_some_iff.1 hres
    have hvis : visible? g.dest x = some o.held := by rw [hr.held, ho']; rfl
    rw [(hm.stays hvis hv).2]
    exact hr.definer o ho' hdecl
  · rw [ho, filter_andThen]
    exact hr.unique

theorem first (hr : Resolved js g x) (hp : Plain src) (hm : MergeStep g src g')
    (hv : visible? src x = some s) (hn : resolution (occurrences js x) = none) :
    Resolved (g.advance src js) g' x := by
  have ho : occurrences (g.advance src js) x = [⟨⟨src, g.arrival src⟩, s⟩] := by
    rw [occurrences_advance, hv, resolution_eq_none.1 hn]
    rfl
  have hres : resolution (occurrences (g.advance src js) x) = some ⟨⟨src, g.arrival src⟩, s⟩ := by
    cases hc : resolution (occurrences (g.advance src js) x) with
    | none => rw [resolution_eq_none.1 hc] at ho; cases ho
    | some o =>
      have := resolution_mem hc
      rw [ho, mem_singleton] at this
      rw [this]
  have hd : visible? g.dest x = none := by rw [hr.held, hn]; rfl
  obtain ⟨r, hr1, hr2, hr3, -⟩ := hm.meets hv
  rw [hd] at hr1 hr3
  obtain rfl : r = (g.arrival src).symbol s := hr1
  refine ⟨?_, ?_, ?_⟩
  · rw [hres]
    exact visible?_eq_some.2 ⟨hr2, arrival_visible hp.wellNamed hv⟩
  · intro o ho' hdecl
    rw [hres] at ho'
    obtain rfl := Option.some.inj ho'
    refine hr3 ?_
    show (!((g.arrival src).symbol s).isDeclaration)
    have hk := hp.kindFirst_symbol (visible?_eq_some.1 hv).1
    rw [Passage.symbol, Symbol.isDeclaration_relabel (keepsLead_arrival g src) hk, hdecl]
    rfl
  · rw [ho]
    exact length_filter_le _ _

theorem meets (hr : Resolved js g x) (hl : Composed (g.advance src js) g')
    (hj : ∀ j ∈ g.advance src js, Plain j.source) (hm : MergeStep g src g')
    (hv : visible? src x = some s) (he : resolution (occurrences js x) = some e) :
    Resolved (g.advance src js) g' x := by
  have hos : occurrences (g.advance src js) x =
      (occurrences js x).map (·.andThen (g.yielding src)) ++ [⟨⟨src, g.arrival src⟩, s⟩] := by
    rw [occurrences_advance, hv]
    rfl
  have he' : resolution ((occurrences js x).map (·.andThen (g.yielding src))) =
      some (e.andThen (g.yielding src)) := by
    rw [resolution_map_andThen, he]
    rfl
  obtain ⟨hed, hel, hev⟩ := held_class hl hj
    (hos ▸ mem_append_left _ (resolution_mem he'))
  obtain ⟨hod, hol, hov⟩ := held_class hl hj
    (hos ▸ mem_append_right _ mem_cons_self)
  have hd : (visible? g.dest x).map (g.yielding src).symbol =
      some (e.andThen (g.yielding src)).held := by
    rw [hr.held, he, Occurrence.held_andThen]
    rfl
  obtain ⟨r, hr1, hr2, hr3, hr4⟩ := hm.meets hv
  rw [hd] at hr1 hr3 hr4
  have hb : bothAppending? (e.andThen (g.yielding src)).held ((g.arrival src).symbol s) = none :=
    (hj _ arrival_mem_advance).arrival_not_appending (visible?_eq_some.1 hv).1
      (keepsLead_arrival g src) _
  obtain ⟨hn, hw⟩ := settles_resolution he' hed hel hod hol hb hr1
  rw [← hos] at hw
  refine ⟨?_, ?_, ?_⟩
  · rcases hw with ⟨hres, rfl, -⟩ | ⟨hres, rfl, -⟩
    · rw [hres]
      exact visible?_eq_some.2 ⟨hr2, hev⟩
    · rw [hres]
      exact visible?_eq_some.2 ⟨hr2, hov⟩
  · intro o ho hdecl
    rcases hw with ⟨hres, -, hdef⟩ | ⟨hres, -, hdef⟩
    · rw [hres] at ho
      obtain rfl := Option.some.inj ho
      rw [hr4 hdef (by rw [hr.held, he]; rfl)]
      exact hr.definer e he hdecl
    · rw [hres] at ho
      obtain rfl := Option.some.inj ho
      exact hr3 (hdef.trans (by rw [hdecl]; rfl))
  · rw [hos, filter_append, length_append, filter_andThen]
    by_cases hs : isStrong s
    · -- a strong definition that met no clash is the first
      have hnil : (occurrences js x).filter (isStrong ·.symbol) = [] := by
        refine filter_eq_nil_iff.2 fun o ho hs' => ?_
        rcases hn with hn | hn
        · exact nomatch (isStrong_resolution ho hs' he).symm.trans hn
        · exact nomatch hs.symm.trans hn
      rw [hnil]
      simp [hs]
    · simp only [hs, filter_cons]
      exact hr.unique

theorem snoc (hr : Resolved js g x) (h : Composed js g) (hj : ∀ j ∈ js, Plain j.source)
    (hp : Plain src) (hm : g.merge src = .ok g') : Resolved (g.advance src js) g' x := by
  have hstep := merge_step h.wellNamed hp.wellNamed hm
  cases hv : visible? src x with
  | none => exact hr.stays h hp.wellNamed hstep hv
  | some s =>
    cases he : resolution (occurrences js x) with
    | none => exact hr.first hp hstep hv he
    | some e => exact hr.meets (h.snoc hp.wellNamed hm) (forall_mem_advance.2 ⟨hj, hp⟩) hstep hv he

end Resolved

theorem trackAll_resolved {identifier : String} {modules : List IrModule}
    (hp : ∀ m ∈ modules, Plain m) (h : trackAll identifier modules = .ok (g, js)) :
    Composed js g ∧ (∀ j ∈ js, Plain j.source) ∧ ∀ x, Resolved js g x := by
  refine trackAll_invariant (P := fun g js => Composed js g ∧ (∀ j ∈ js, Plain j.source) ∧
    ∀ x, Resolved js g x)
    ?_ ?_ hp h
  · exact ⟨.empty identifier, nofun, fun x => ⟨rfl, nofun, Nat.zero_le _⟩⟩
  · rintro g js src g' ⟨hl, hj, hr⟩ hsrc hm
    exact ⟨hl.snoc hsrc.wellNamed hm, forall_mem_advance.2 ⟨hj, hsrc⟩,
      fun x => (hr x).snoc hl hj hsrc hm⟩

/-! ## Two strong definitions -/

def HoldsStrong (m : IrModule) (x : String) : Prop := ∃ s, visible? m x = some s ∧ isStrong s

instance (m : IrModule) (x : String) : Decidable (HoldsStrong m x) :=
  decidable_of_iff ((visible? m x).any isStrong) (by
    unfold HoldsStrong
    cases visible? m x <;> simp)

theorem checkTarget_error (h : g.checkTarget src = .error b) (x first second : String) :
    b.error ≠ .duplicate x first second := by
  unfold Merger.checkTarget at h
  cases ht : agree g.dest.targetTriple src.targetTriple with
  | none =>
    simp only [ht, Except.error.injEq] at h
    rw [← h]
    simp
  | some triple =>
    simp only [ht] at h
    cases hl : agree g.dest.dataLayout src.dataLayout with
    | none =>
      simp only [hl, Except.error.injEq] at h
      rw [← h]
      simp
    | some layout => rw [hl] at h; cases h

theorem joinSymbols_clash (hd : g.dest.WellNamed) (hp : Plain src) {triple layout filename : String}
    (h : joinSymbols g src triple layout filename = .error b) :
    ∃ x e, HoldsStrong src x ∧ visible? g.dest x = some e ∧ isStrong ((g.yielding src).symbol e) ∧
      b.error = .duplicate x ((g.definer.get? x).getD "<unknown>") src.identifier := by
  have hw := wellNamed_arrived g hp.wellNamed
  obtain ⟨sym, hm, hv⟩ := mergeSymbols_error (wellNamed_yielded hd) (headed_symbolsInOrder hw)
    (nodup_symbolsInOrder hw) h
  obtain ⟨x, s, hx, hn, rfl⟩ := (symbol?_arrived hp.wellNamed).1 ((mem_symbolsInOrder hw).1 hm)
  have hb : ∀ e, bothAppending? e ((g.arrival src).symbol s) = none :=
    hp.arrival_not_appending hx (keepsLead_arrival g src)
  rcases hv with ⟨hv, he⟩ | ⟨a, c, hv, -⟩
  · obtain ⟨e', he', hes, hss⟩ := (verdict_eq_clash fun e _ => hb e).1 hv
    have hvis : visible? src x = some s := by
      refine visible?_eq_some.2 ⟨hx, ?_⟩
      by_contra hl
      rw [← hn, symbol?_yielded_of_local hd hp.wellNamed hx (by simpa using hl)] at he'
      cases he'
    rw [← hn, arrival_name_of_visible? hp.wellNamed hvis] at he' he
    rw [symbol?_yielded_of_visible? hd hp.wellNamed hvis] at he'
    obtain ⟨e, hve, rfl⟩ := Option.map_eq_some_iff.1 he'
    rw [definer_yielded hve] at he
    refine ⟨x, e, ⟨s, hvis, ?_⟩, hve, hes, he⟩
    rwa [Passage.symbol, isStrong_relabel (keepsLead_arrival g src) (hp.wellNamed.headed hx)
      (hp.kindFirst_symbol hx)] at hss
  · exact absurd hv (verdict_ne_concat fun e _ => hb e)

section duplicate

variable (hl : Composed js g) (hj : ∀ j ∈ js, Plain j.source) (hr : ∀ x, Resolved js g x)
  (hp : Plain src)

include hl hj hr hp

theorem duplicate_of_merge {left : Merger} {first second : String}
    (h : g.merge src = .error ⟨left, .duplicate x first second⟩) :
    (∃ g1, g.checkTarget src = .ok g1) ∧ HoldsStrong src x ∧ second = src.identifier ∧
      ∃ o ∈ occurrences js x, isStrong o.symbol ∧ g.dest.symbol? x = some o.held ∧
        g.definer.get? x = some first ∧ first = o.joined.source.identifier := by
  rcases merge_error h with h | ⟨g1, triple, layout, filename, hc, h⟩
  · exact absurd rfl (checkTarget_error h x first second)
  · obtain ⟨y, e, hs, hv, hes, he⟩ := joinSymbols_clash hl.wellNamed hp h
    obtain ⟨rfl, hf, rfl⟩ := MergeError.duplicate.inj he
    have hheld := (hr x).held
    rw [hv] at hheld
    obtain ⟨o, ho, rfl⟩ := Option.map_eq_some_iff.1 hheld.symm
    have hmem := resolution_mem ho
    obtain ⟨hod, hol, -⟩ := held_class hl hj hmem
    have hoh : o.held.Headed := hl.wellNamed.headed (visible?_eq_some.1 hv).1
    have hkf : o.held.kindFirst := by
      obtain ⟨hjm, hos⟩ := mem_occurrences hmem
      exact Symbol.kindFirst_relabel (hl.source _ hjm).2
        ((hj _ hjm).kindFirst_symbol (visible?_eq_some.1 hos).1)
    rw [Passage.symbol, isStrong_relabel (keepsLead_yielding g src) hoh hkf] at hes
    have hos : isStrong o.symbol := by
      rw [isStrong, hod, hol] at hes
      exact hes
    have hdecl : o.symbol.isDeclaration = false := by
      simp only [isStrong, Bool.and_eq_true, Bool.not_eq_true'] at hos
      exact hos.1
    have hdef := (hr x).definer o ho hdecl
    rw [hdef] at hf
    refine ⟨⟨g1, hc⟩, hs, rfl, o, hmem, hos, (visible?_eq_some.1 hv).1, ?_, hf⟩
    rw [hdef, hf]
    rfl

theorem merge_duplicate {g₁ : Merger} (hc : g.checkTarget src = .ok g₁) (hs : HoldsStrong src x)
    (ho : o ∈ occurrences js x) (hos : isStrong o.symbol) :
    ∃ left y first second, g.merge src = .error ⟨left, .duplicate y first second⟩ := by
  cases hm : g.merge src with
  | ok g' =>
    -- the name would have two strong definitions after the join
    obtain ⟨s, hv, hss⟩ := hs
    have hu := ((hr x).snoc hl hj hp hm).unique
    rw [occurrences_advance, hv, filter_append, length_append, filter_andThen] at hu
    have h1 : 0 < ((occurrences js x).filter (isStrong ·.symbol)).length :=
      length_pos_of_mem (mem_filter.2 ⟨ho, hos⟩)
    simp only [Option.map_some, Option.toList_some, filter_cons, hss, if_true, length_cons] at hu
    omega
  | error b =>
    rcases merge_error hm with h | ⟨g₁', triple, layout, filename, -, h⟩
    · rw [hc] at h
      cases h
    · obtain ⟨y, e, -, -, -, he⟩ := joinSymbols_clash hl.wellNamed hp h
      exact ⟨b.left, y, _, _, by rw [← he]⟩

end duplicate

theorem holdsStrong_of_mem_occurrences (ho : o ∈ occurrences js x) (hs : isStrong o.symbol) :
    o.joined ∈ js ∧ HoldsStrong o.joined.source x := by
  obtain ⟨hj, hv⟩ := mem_occurrences ho
  exact ⟨hj, o.symbol, hv, hs⟩

theorem exists_occurrence {j : Joined} (hj : j ∈ js) (hs : HoldsStrong j.source x) :
    ∃ o ∈ occurrences js x, isStrong o.symbol := by
  obtain ⟨s, hv, hs⟩ := hs
  exact ⟨⟨j, s⟩, mem_filterMap.2 ⟨j, hj, by rw [hv]; rfl⟩, hs⟩

/-- **Resolution.** After a run every visible name stands for its one strong definition, else its
first overridable definition, else its first declaration, as the joins rewrote it. A further module
cannot be joined because of a duplicate exactly if its header lines agree and it has a strong
definition of a name of which a module joined before has one; the error names such a name, the
module whose definition the destination holds, and the further module. -/
theorem visible_symbols_resolve {identifier : String} {modules : List IrModule} {g : Merger}
    (hp : ∀ m ∈ modules, Plain m) (h : mergeAll identifier modules = .ok g) :
    ∃ js, trackAll identifier modules = .ok (g, js) ∧ js.map Joined.source = modules ∧
      (∀ x, ((occurrences js x).filter (isStrong ·.symbol)).length ≤ 1 ∧
        (occurrences js x ≠ [] →
          ∃ o, resolution (occurrences js x) = some o ∧ g.dest.symbol? x = some o.held)) ∧
      ∀ b, Plain b →
        ((∃ left x first second, g.merge b = .error ⟨left, .duplicate x first second⟩) ↔
          (∃ g₁, g.checkTarget b = .ok g₁) ∧ ∃ x, HoldsStrong b x ∧
          ∃ m ∈ modules, HoldsStrong m x) ∧
        ∀ left x first second, g.merge b = .error ⟨left, .duplicate x first second⟩ →
          HoldsStrong b x ∧ second = b.identifier ∧
            ∃ o ∈ occurrences js x, isStrong o.symbol = true ∧ g.dest.symbol? x = some o.held ∧
              g.definer.get? x = some first ∧ first = o.joined.source.identifier := by
  obtain ⟨js, ht⟩ := exists_trackAll h
  have hsrc := sources_trackAll ht
  obtain ⟨hl, hj, hr⟩ := trackAll_resolved hp ht
  refine ⟨js, ht, hsrc, fun x => ⟨(hr x).unique, fun hne => ?_⟩, fun b hb => ⟨⟨?_, ?_⟩, ?_⟩⟩
  · cases ho : resolution (occurrences js x) with
    | none => exact absurd (resolution_eq_none.1 ho) hne
    | some o =>
      have hv : visible? g.dest x = some o.held := by rw [(hr x).held, ho]; rfl
      exact ⟨o, rfl, (visible?_eq_some.1 hv).1⟩
  · rintro ⟨left, x, first, second, hm⟩
    obtain ⟨hc, hs, -, o, ho, hos, -⟩ := duplicate_of_merge hl hj hr hb hm
    obtain ⟨hoj, hom⟩ := holdsStrong_of_mem_occurrences ho hos
    exact ⟨hc, x, hs, o.joined.source, hsrc ▸ mem_map_of_mem hoj, hom⟩
  · rintro ⟨⟨g₁, hc⟩, x, hs, m, hm, hms⟩
    rw [← hsrc] at hm
    obtain ⟨j, hjm, rfl⟩ := mem_map.1 hm
    obtain ⟨o, ho, hos⟩ := exists_occurrence hjm hms
    exact merge_duplicate hl hj hr hb hc hs ho hos
  · intro left x first second hm
    exact (duplicate_of_merge hl hj hr hb hm).2

/-- A declaration, an overridable and a strong definition of `x`, with local symbols of one name
beside them. -/
def sampleModules : List IrModule :=
  [{ identifier := "a"
     globals := .ofList [("x", ⟨"x", "external global i32"⟩),
       ("s", ⟨"s", "internal global ptr @x"⟩)] },
   { identifier := "b"
     globals := .ofList [("x", ⟨"x", "weak global i32 1"⟩),
       ("s", ⟨"s", "private constant i32 2"⟩)] },
   { identifier := "c"
     globals := .ofList [("x", ⟨"x", "global i32 3"⟩)]
     functions := .ofList [("s", ⟨"s", "define ptr @s()", [⟨"", [⟨"  ret ptr @x"⟩], none⟩]⟩)] }]

/-- A module with another strong definition of `x`. -/
def sampleRival : IrModule :=
  { identifier := "d", globals := .ofList [("x", ⟨"x", "dso_local constant i32 4"⟩)] }

set_option maxRecDepth 100000 in
theorem sampleModules_resolve :
    (∀ m ∈ sampleModules, Plain m) ∧ Plain sampleRival ∧
      ∃ g js, mergeAll "out" sampleModules = .ok g ∧ trackAll "out" sampleModules = .ok (g, js) ∧
      (∃ o, resolution (occurrences js "x") = some o ∧ g.dest.symbol? "x" = some o.held) ∧
      ∃ left x first second, g.merge sampleRival = .error ⟨left, .duplicate x first second⟩ := by
  have hp : ∀ m ∈ sampleModules, Plain m := by decide +kernel
  have hr : Plain sampleRival := by decide +kernel
  obtain ⟨g, hg⟩ := exists_eq_ok (x := mergeAll "out" sampleModules) (by decide +kernel)
  obtain ⟨js, ht, hsrc, hres, hdup⟩ := visible_symbols_resolve hp hg
  have hstrong : ∃ m ∈ sampleModules, HoldsStrong m "x" := by decide +kernel
  have hc : ∃ g₁, g.checkTarget sampleRival = .ok g₁ := ⟨_, rfl⟩
  refine ⟨hp, hr, g, js, hg, ht, (hres "x").2 ?_,
    (hdup sampleRival hr).1.2 ⟨hc, "x", by decide +kernel, hstrong⟩⟩
  intro hnil
  obtain ⟨m, hm, hs⟩ := hstrong
  rw [← hsrc] at hm
  obtain ⟨j, hj, rfl⟩ := mem_map.1 hm
  obtain ⟨o, ho, -⟩ := exists_occurrence hj hs
  rw [hnil] at ho
  cases ho

/-- Two modules with a strong definition of `x`; that of the second is an alias whose kind word
stands behind the name of a type. -/
def hiddenKind : IrModule × IrModule :=
  ({ identifier := "a"
     types := .ofList [("s global t", "\x7b i32 \x7d")]
     globals := .ofList [("x", ⟨"x", "global i32 1"⟩)] },
   { identifier := "b"
     types := .ofList [("s global t", "\x7b i64 \x7d")]
     globals := .ofList [("x", ⟨"x", "external %\"s\\20global\\20t\" alias i32, ptr @x"⟩)] })

set_option maxRecDepth 100000 in
/-- The type gets a new name, which is written with the blanks of its decoded form, and the alias is
taken for the declaration of a variable. -/
theorem hiddenKind_joined :
    hiddenKind.1.WellNamed ∧ hiddenKind.2.WellNamed ∧ hiddenKind.1.NoAppending ∧
      hiddenKind.2.NoAppending ∧ HoldsStrong hiddenKind.1 "x" ∧ HoldsStrong hiddenKind.2 "x" ∧
      (mergeAll "out" [hiddenKind.1, hiddenKind.2]).isOk = true := by
  decide +kernel

end CallAtlas.Link
