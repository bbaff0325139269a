import CallAtlas.Link.Merge
import CallAtlas.Proofs.Ir.Symbols
import CallAtlas.Proofs.Outcome

/-!
# Symbols of one name

What happens when a symbol is joined with the symbol of its name depends on the two alone:
`verdict`. One join touches no other name, `mergeSymbol_step`, so when symbols of different names
are joined one after the other each meets what stood there at the start: `mergeSymbols_run`. The
first two strong definitions of one name that meet end the joining, `mergeSymbols_error`.
-/

namespace CallAtlas.Link

open Ir List

/-- What becomes of a symbol that comes to where `existing` stands. -/
inductive Verdict where
  | keep
  | take
  | concat (a b : Global)
  | clash

/-- The verdict on two symbols of one name. -/
def verdict (existing : Option Symbol) (sym : Symbol) : Verdict :=
  match existing with
  | none => .take
  | some e =>
    if sym.isDeclaration then .keep
    else if e.isDeclaration then .take
    else match bothAppending? e sym with
      | some (a, b) => .concat a b
      | none =>
        if sym.linkage.isOverridable then .keep else if e.linkage.isOverridable then .take
          else .clash

/-- `r` stands under the name of `sym` after `sym` came to where `existing` stood. -/
def Settles (existing : Option Symbol) (sym r : Symbol) : Prop :=
  match verdict existing sym with
  | .keep => existing = some r
  | .take => r = sym
  | .concat a b => ∃ segment, joinArrays a.segment b.segment sym.name = .ok segment ∧
    r = .global { a with segment }
  | .clash => False

/-- Whether the coming symbol becomes the definition of its name. -/
def defines (existing : Option Symbol) (sym : Symbol) : Bool :=
  match verdict existing sym with
  | .take => !sym.isDeclaration
  | _ => false

/-- Two modules that differ in their symbols at most. -/
def SameRest (m m' : IrModule) : Prop :=
  m' = { m with functions := m'.functions, globals := m'.globals }

theorem SameRest.refl (m : IrModule) : SameRest m m := rfl

theorem SameRest.trans {m m' m'' : IrModule} (h : SameRest m m') (h' : SameRest m' m'') :
    SameRest m m'' := by
  unfold SameRest at *
  rw [h', h]

theorem sameRest_putSymbol (m : IrModule) (s : Symbol) : SameRest m (m.putSymbol s) := by
  cases s <;> rfl

/-! ## Replacing a symbol -/

/-- What a change of the symbol under one name leaves: every other name and the good order of the
tables. -/
structure Replaced (m m' : IrModule) (x : String) (r : Symbol) : Prop where
  symbol? : ∀ y, m'.symbol? y = if x = y then some r else m.symbol? y
  wellNamed : m'.WellNamed

variable {m : IrModule} {sym existing : Symbol} {a b : Global}

theorem replaced_put (hm : m.WellNamed) (hs : sym.Headed) (hf : m.Fits sym) :
    Replaced m (m.putSymbol sym) sym.name sym :=
  ⟨fun _ => IrModule.symbol?_putSymbol hf, hm.putSymbol hf hs⟩

theorem fits_function {f f' : Function} (hm : m.WellNamed)
    (he : m.symbol? f'.name = some (.function f)) :
    m.Fits (.function f') :=
  hm.disjoint _ (Table.mem_keys_of_get? (IrModule.symbol?_eq_function.1 he))

theorem fits_global {g g' : Global} (hm : m.WellNamed) (he : m.symbol? g'.name = some (.global g)) :
    m.Fits (.global g') :=
  fun hf => hm.disjoint _ hf (Table.mem_keys_of_get? (hm.symbol?_eq_global.1 he))

theorem replaced_remove_put (hm : m.WellNamed) (hs : sym.Headed)
    (he : m.symbol? sym.name = some existing) :
    Replaced m ((m.removeSymbol existing.name).putSymbol sym) sym.name sym := by
  have hn := hm.name_eq he
  have hf : (m.removeSymbol existing.name).Fits sym := by
    refine IrModule.fits_of_absent ?_
    rw [IrModule.symbol?_removeSymbol, if_pos hn]
  have h := replaced_put (hm.removeSymbol existing.name) hs hf
  refine ⟨fun y => ?_, h.wellNamed⟩
  rw [h.symbol?, IrModule.symbol?_removeSymbol, hn]
  split_ifs <;> rfl

theorem replaced_replace (hm : m.WellNamed) (hs : sym.Headed)
    (he : m.symbol? sym.name = some existing) :
    Replaced m (replaceSymbol m existing sym) sym.name sym := by
  cases existing with
  | function f =>
    cases sym with
    | function f' => exact replaced_put hm hs (fits_function hm he)
    | global g' => exact replaced_remove_put hm hs he
  | global g =>
    cases sym with
    | function f' => exact replaced_remove_put hm hs he
    | global g' => exact replaced_put hm hs (fits_global hm he)

theorem bothAppending?_eq_some (h : bothAppending? existing sym = some (a, b)) :
    existing = .global a ∧ sym = .global b ∧ a.linkage = .appending ∧ b.linkage = .appending := by
  cases existing with
  | function f => cases h
  | global a' =>
    cases sym with
    | function f => cases h
    | global b' =>
      simp only [bothAppending?] at h
      split_ifs at h with hl
      simp only [Bool.and_eq_true, decide_eq_true_eq] at hl
      obtain ⟨rfl, rfl⟩ := Prod.mk.inj (Option.some.inj h)
      exact ⟨rfl, rfl, hl.1, hl.2⟩

theorem verdict_concat {existing : Option Symbol} (h : verdict existing sym = .concat a b) :
    existing = some (.global a) ∧ sym = .global b ∧ a.linkage = .appending ∧
    b.linkage = .appending := by
  cases existing with
  | none => cases h
  | some e =>
    unfold verdict at h
    cases hb : bothAppending? e sym with
    | some p =>
      simp only [hb] at h
      split_ifs at h
      obtain ⟨rfl, rfl⟩ := Verdict.concat.inj h
      obtain ⟨rfl, h2⟩ := bothAppending?_eq_some hb
      exact ⟨rfl, h2⟩
    | none =>
      simp only [hb] at h
      split_ifs at h

theorem Settles.cases {existing : Option Symbol} {r : Symbol} (h : Settles existing sym r) :
    verdict existing sym = .keep ∧ existing = some r ∨ verdict existing sym = .take ∧ r = sym ∨
      ∃ a b segment, verdict existing sym = .concat a b ∧
        joinArrays a.segment b.segment sym.name = .ok segment ∧ r = .global { a with segment } := by
  unfold Settles at h
  cases hv : verdict existing sym with
  | keep => rw [hv] at h; exact .inl ⟨rfl, h⟩
  | take => rw [hv] at h; exact .inr (.inl ⟨rfl, h⟩)
  | concat a b =>
    rw [hv] at h
    obtain ⟨segment, hj, hr⟩ := h
    exact .inr (.inr ⟨a, b, segment, rfl, hj, hr⟩)
  | clash => rw [hv] at h; exact h.elim

/-! ## One symbol -/

/-- What the join of one symbol does. -/
structure SymbolStep (origin : String) (sym : Symbol) (g g' : Merger) (r : Symbol) : Prop where
  settles : Settles (g.dest.symbol? sym.name) sym r
  dest : Replaced g.dest g'.dest sym.name r
  definer : ∀ y, g'.definer.get? y =
    if defines (g.dest.symbol? sym.name) sym ∧ sym.name = y then some origin else g.definer.get? y
  merged : g'.merged = g.merged

variable {origin : String} {g g' : Merger}

/-- The destination with the coming symbol in its place. -/
def Merger.place (g : Merger) (origin : String) (sym : Symbol) : Merger :=
  let dest := match g.dest.symbol? sym.name with
    | none => g.dest.putSymbol sym
    | some e => replaceSymbol g.dest e sym
  if sym.isDeclaration then { g with dest }
    else { g with dest, definer := g.definer.insert sym.name origin }

/-- A join does what the verdict says. -/
theorem mergeSymbol_eq (g : Merger) (origin : String) (sym : Symbol) :
    g.mergeSymbol origin sym =
      match verdict (g.dest.symbol? sym.name) sym with
      | .keep => .ok g
      | .take => .ok (g.place origin sym)
      | .concat a b =>
        match joinArrays a.segment b.segment sym.name with
        | .ok segment => .ok { g with dest := g.dest.putSymbol (.global { a with segment }) }
        | .error e => .error ⟨g, e⟩
      | .clash =>
        .error ⟨g, .duplicate sym.name ((g.definer.get? sym.name).getD "<unknown>") origin⟩ := by
  unfold Merger.mergeSymbol Merger.place verdict
  cases g.dest.symbol? sym.name with
  | none => rfl
  | some e =>
    by_cases hn : sym.isDeclaration
    · simp [hn]
    by_cases hd : e.isDeclaration
    · simp [hn, hd]
    cases hb : bothAppending? e sym with
    | some p =>
      cases hj : joinArrays p.1.segment p.2.segment sym.name <;> simp [hn, hd, hb, hj]
    | none =>
      by_cases ho : sym.linkage.isOverridable
      · simp [hd, hb, ho]
      by_cases hx : e.linkage.isOverridable
      · simp [hn, hb, ho, hx]
      · simp [hn, hd, hb, ho, hx]

theorem sameRest_replaceSymbol (m : IrModule) (existing sym : Symbol) :
    SameRest m (replaceSymbol m existing sym) := by
  unfold replaceSymbol
  split
  · exact sameRest_putSymbol m _
  · exact sameRest_putSymbol m _
  · exact (show SameRest m (m.removeSymbol existing.name) from rfl).trans (sameRest_putSymbol _ _)

theorem dest_place (g : Merger) (origin : String) (sym : Symbol) :
    (g.place origin sym).dest = match g.dest.symbol? sym.name with
      | none => g.dest.putSymbol sym
      | some e => replaceSymbol g.dest e sym := by
  unfold Merger.place
  split_ifs <;> rfl

theorem holds_place {y : String} {s : Symbol} (h : (g.place origin sym).dest.Holds y s) :
    sym = s ∧ sym.name = y ∨ g.dest.Holds y s := by
  rw [dest_place] at h
  split at h
  · exact IrModule.holds_putSymbol h
  · unfold replaceSymbol at h
    split at h
    · exact IrModule.holds_putSymbol h
    · exact IrModule.holds_putSymbol h
    · exact (IrModule.holds_putSymbol h).imp_right IrModule.holds_removeSymbol

theorem mergeSymbol_cases (h : g.mergeSymbol origin sym = .ok g') :
    verdict (g.dest.symbol? sym.name) sym = .keep ∧ g' = g ∨
    verdict (g.dest.symbol? sym.name) sym = .take ∧ g' = g.place origin sym ∨
    ∃ a b segment, verdict (g.dest.symbol? sym.name) sym = .concat a b ∧
      joinArrays a.segment b.segment sym.name = .ok segment ∧
      g' = { g with dest := g.dest.putSymbol (.global { a with segment }) } := by
  rw [mergeSymbol_eq] at h
  cases hv : verdict (g.dest.symbol? sym.name) sym with
  | keep => rw [hv] at h; exact .inl ⟨rfl, (Except.ok.inj h).symm⟩
  | take => rw [hv] at h; exact .inr (.inl ⟨rfl, (Except.ok.inj h).symm⟩)
  | concat a b =>
    simp only [hv] at h
    cases hj : joinArrays a.segment b.segment sym.name with
    | error e => rw [hj] at h; cases h
    | ok segment =>
      rw [hj] at h
      exact .inr (.inr ⟨a, b, segment, rfl, hj, (Except.ok.inj h).symm⟩)
  | clash => rw [hv] at h; cases h

theorem sameRest_mergeSymbols {syms : List Symbol}
    (h : syms.foldlM (Merger.mergeSymbol origin) g = .ok g') : SameRest g.dest g'.dest := by
  refine foldlM_ok (P := fun g' => SameRest g.dest g'.dest) (fun sym _ g₁ g₂ hr h => hr.trans ?_)
    (.refl _) h
  rcases mergeSymbol_cases h with ⟨-, rfl⟩ | ⟨-, rfl⟩ | ⟨a, b, segment, -, -, rfl⟩
  · exact .refl _
  · rw [dest_place]
    split
    · exact sameRest_putSymbol _ _
    · exact sameRest_replaceSymbol _ _ _
  · exact sameRest_putSymbol g₁.dest (.global { a with segment })

/-- What holds of the symbols of the destination and of those that come, and of arrays joined from
such, holds of the symbols after the join. -/
theorem forall_holds_mergeSymbols {syms : List Symbol} {P : String → Symbol → Prop}
    (hsyms : ∀ s ∈ syms, P s.name s)
    (hjoin : ∀ {x a b segment}, P x (.global a) → P b.name (.global b) → a.linkage = .appending →
      b.linkage = .appending → joinArrays a.segment b.segment b.name = .ok segment →
      P a.name (.global { a with segment }))
    (hd : ∀ y s, g.dest.Holds y s → P y s)
    (h : syms.foldlM (Merger.mergeSymbol origin) g = .ok g') :
    ∀ y s, g'.dest.Holds y s → P y s := by
  refine foldlM_ok (P := fun g' : Merger => ∀ y s, g'.dest.Holds y s → P y s) ?_ hd h
  intro sym hmem g₁ g₂ hd h y s hs
  rcases mergeSymbol_cases h with ⟨-, rfl⟩ | ⟨-, rfl⟩ | ⟨a, b, segment, hv, hj, rfl⟩
  · exact hd y s hs
  · rcases holds_place hs with ⟨rfl, rfl⟩ | hs
    · exact hsyms _ hmem
    · exact hd y s hs
  · obtain ⟨he, rfl, hla, hlb⟩ := verdict_concat hv
    rcases IrModule.holds_putSymbol hs with ⟨rfl, rfl⟩ | hs
    · exact @hjoin _ a b segment (hd _ _ (IrModule.holds_of_symbol? he)) (hsyms _ hmem) hla hlb hj
    · exact hd y s hs

theorem step_keep (hw : g.dest.WellNamed) (hv : verdict (g.dest.symbol? sym.name) sym = .keep) :
    ∃ r, SymbolStep origin sym g g r := by
  cases he : g.dest.symbol? sym.name with
  | none => rw [he] at hv; cases hv
  | some r =>
    refine ⟨r, ?_, ⟨fun y => ?_, hw⟩, fun y => ?_, rfl⟩
    · rw [Settles, hv]
      exact he
    · split_ifs with hy
      · rw [← hy, he]
      · rfl
    · rw [defines, hv]
      simp

theorem step_take (hw : g.dest.WellNamed) (hs : sym.Headed)
    (hv : verdict (g.dest.symbol? sym.name) sym = .take) :
    SymbolStep origin sym g (g.place origin sym) sym := by
  have hd : Replaced g.dest (g.place origin sym).dest sym.name sym := by
    unfold Merger.place
    cases he : g.dest.symbol? sym.name with
    | none =>
      have hp := replaced_put hw hs (IrModule.fits_of_absent he)
      split_ifs <;> exact hp
    | some e =>
      have hp := replaced_replace hw hs he
      split_ifs <;> exact hp
  refine ⟨?_, hd, fun y => ?_, ?_⟩
  · rw [Settles, hv]
  · rw [defines, hv]
    unfold Merger.place
    by_cases hn : sym.isDeclaration
    · simp [hn]
    · simp [hn]
  · unfold Merger.place
    split_ifs <;> rfl

theorem step_concat (hw : g.dest.WellNamed) {segment : String}
    (hv : verdict (g.dest.symbol? sym.name) sym = .concat a b)
    (hj : joinArrays a.segment b.segment sym.name = .ok segment) :
    SymbolStep origin sym g { g with dest := g.dest.putSymbol (.global { a with segment }) }
      (.global { a with segment }) := by
  have he := (verdict_concat hv).1
  have hn : a.name = sym.name := hw.name_eq he
  refine ⟨?_, ?_, fun y => ?_, rfl⟩
  · rw [Settles, hv]
    exact ⟨segment, hj, rfl⟩
  · have hf : g.dest.Fits (.global { a with segment }) := fits_global hw (by rw [hn]; exact he)
    rw [← hn]
    exact replaced_put hw (show Symbol.Headed (.global { a with segment }) from trivial) hf
  · rw [defines, hv]
    simp

theorem mergeSymbol_step (hw : g.dest.WellNamed) (hs : sym.Headed)
    (h : g.mergeSymbol origin sym = .ok g') : ∃ r, SymbolStep origin sym g g' r := by
  rcases mergeSymbol_cases h with ⟨hv, rfl⟩ | ⟨hv, rfl⟩ | ⟨a, b, segment, hv, hj, rfl⟩
  · exact step_keep hw hv
  · exact ⟨sym, step_take hw hs hv⟩
  · exact ⟨_, step_concat hw hv hj⟩

/-! ## Symbols of different names -/

/-- What the join of symbols of different names does. -/
structure SymbolRun (origin : String) (syms : List Symbol) (g g' : Merger) : Prop where
  /-- A name that no symbol has stays as it is. -/
  frame : ∀ y ∉ syms.map Symbol.name, g'.dest.symbol? y = g.dest.symbol? y ∧
    g'.definer.get? y = g.definer.get? y
  /-- Every symbol meets what stood under its name at the start. -/
  settled : ∀ sym ∈ syms, ∃ r, Settles (g.dest.symbol? sym.name) sym r ∧
    g'.dest.symbol? sym.name = some r ∧ g'.definer.get? sym.name =
      if defines (g.dest.symbol? sym.name) sym then some origin else g.definer.get? sym.name
  wellNamed : g'.dest.WellNamed
  merged : g'.merged = g.merged

variable {syms : List Symbol}

theorem SymbolRun.nil (hw : g.dest.WellNamed) : SymbolRun origin [] g g :=
  ⟨fun _ _ => ⟨rfl, rfl⟩, fun _ h => absurd h not_mem_nil, hw, rfl⟩

theorem SymbolStep.frame {r : Symbol} (h : SymbolStep origin sym g g' r) {y : String}
    (hy : sym.name ≠ y) :
    g'.dest.symbol? y = g.dest.symbol? y ∧ g'.definer.get? y = g.definer.get? y := by
  rw [h.dest.symbol?, h.definer, if_neg hy, if_neg fun hn => hy hn.2]
  exact ⟨rfl, rfl⟩

theorem SymbolRun.cons {r : Symbol} {g'' : Merger} (hn : sym.name ∉ syms.map Symbol.name)
    (h : SymbolStep origin sym g g' r) (hr : SymbolRun origin syms g' g'') :
    SymbolRun origin (sym :: syms) g g'' := by
  refine ⟨?_, ?_, hr.wellNamed, hr.merged.trans h.merged⟩
  · intro y hy
    rw [map_cons, mem_cons, not_or] at hy
    obtain ⟨h1, h2⟩ := h.frame (symm hy.1)
    rw [(hr.frame y hy.2).1, (hr.frame y hy.2).2]
    exact ⟨h1, h2⟩
  · intro s hs
    rcases mem_cons.1 hs with rfl | hs
    · refine ⟨r, h.settles, ?_, ?_⟩
      · rw [(hr.frame _ hn).1, h.dest.symbol?, if_pos rfl]
      · rw [(hr.frame _ hn).2, h.definer]
        simp
    · have hne : sym.name ≠ s.name := fun he => hn (he ▸ mem_map_of_mem hs)
      obtain ⟨h1, h2⟩ := h.frame hne
      have := hr.settled s hs
      rwa [h1, h2] at this

theorem mergeSymbols_run (hw : g.dest.WellNamed) (hs : ∀ sym ∈ syms, sym.Headed)
    (hd : (syms.map Symbol.name).Nodup) (h : syms.foldlM (Merger.mergeSymbol origin) g = .ok g') :
    SymbolRun origin syms g g' := by
  induction syms generalizing g with
  | nil =>
    obtain rfl := Except.ok.inj h
    exact .nil hw
  | cons sym syms ih =>
    obtain ⟨g1, h1, h⟩ := foldlM_cons_ok h
    obtain ⟨r, hr⟩ := mergeSymbol_step hw (hs sym mem_cons_self) h1
    rw [map_cons, nodup_cons] at hd
    exact .cons hd.1 hr (ih hr.dest.wellNamed (fun s h => hs s (mem_cons_of_mem _ h)) hd.2 h)

theorem mergeSymbols_error (hw : g.dest.WellNamed) (hs : ∀ sym ∈ syms, sym.Headed)
    (hd : (syms.map Symbol.name).Nodup) {b : Broken}
    (h : syms.foldlM (Merger.mergeSymbol origin) g = .error b) :
    ∃ sym ∈ syms,
      (verdict (g.dest.symbol? sym.name) sym = .clash ∧
        b.error = .duplicate sym.name ((g.definer.get? sym.name).getD "<unknown>") origin) ∨
      ∃ x y, verdict (g.dest.symbol? sym.name) sym = .concat x y ∧
        joinArrays x.segment y.segment sym.name = .error b.error := by
  induction syms generalizing g with
  | nil => cases h
  | cons sym syms ih =>
    rw [foldlM_cons] at h
    cases h1 : g.mergeSymbol origin sym with
    | error e =>
      rw [h1] at h
      obtain rfl := Except.error.inj h
      refine ⟨sym, mem_cons_self, ?_⟩
      rw [mergeSymbol_eq] at h1
      cases hv : verdict (g.dest.symbol? sym.name) sym with
      | keep => rw [hv] at h1; cases h1
      | take => rw [hv] at h1; cases h1
      | concat x y =>
        simp only [hv] at h1
        cases hj : joinArrays x.segment y.segment sym.name with
        | ok segment => rw [hj] at h1; cases h1
        | error e =>
          rw [hj] at h1
          exact .inr ⟨x, y, rfl, by rw [← Except.error.inj h1]; exact hj⟩
      | clash =>
        simp only [hv, Except.error.injEq] at h1
        exact .inl ⟨rfl, by rw [← h1]⟩
    | ok g1 =>
      rw [h1] at h
      obtain ⟨r, hr⟩ := mergeSymbol_step hw (hs sym mem_cons_self) h1
      rw [map_cons, nodup_cons] at hd
      obtain ⟨s, hm, he⟩ := ih hr.dest.wellNamed (fun s h => hs s (mem_cons_of_mem _ h)) hd.2 h
      have hne : sym.name ≠ s.name := fun he => hd.1 (he ▸ mem_map_of_mem hm)
      rw [(hr.frame hne).1, (hr.frame hne).2] at he
      exact ⟨s, mem_cons_of_mem _ hm, he⟩

end CallAtlas.Link
