import CallAtlas.Proofs.Link.Faithful
import CallAtlas.Proofs.Link.Record
import CallAtlas.Proofs.Link.Resolution

/-!
# The order of modules

Whether modules can be joined is decided by each two of them, in whatever order they come:
`mergeAll_isOk_iff`. Two modules are `Compatible` if their header lines agree and no name has a
strong definition in both, unless these are arrays that can be concatenated. What carries this
through a run is `Standing`: the symbol that the destination holds under a name is as strong as the
strongest that came under it, and it can be concatenated exactly if each strong one could. A strong
definition that is no array is the only one of its name, so it does not depend on the order either.
-/

namespace CallAtlas.Link

open Ir IrModule List

variable {a : Global} {existing : Option Symbol} {g : Merger}
  {identifier incoming present x : String} {s' sym : Symbol}

/-! ## Two symbols -/

/-- Whether the symbol is an array that can be concatenated. -/
def joinable : Symbol → Bool
  | .function _ => false
  | .global a => a.linkage = .appending && splits a.segment.toList

/-- Two symbols of one name can be joined: at most one is a strong definition, or both are arrays
that can be concatenated. -/
def Meet (s s' : Symbol) : Prop := isStrong s → isStrong s' → joinable s ∧ joinable s'

instance (s s' : Symbol) : Decidable (Meet s s') := inferInstanceAs (Decidable (_ → _ → _))

theorem Meet.symm {s : Symbol} (h : Meet s s') : Meet s' s := fun h' hs => (h hs h').symm

theorem joinable_global (h : a.linkage = .appending) :
    joinable (.global a) = splits a.segment.toList := by
  simp [joinable, h]

theorem isStrong_global (h : a.linkage = .appending) : isStrong (.global a) = !a.isDeclaration := by
  rw [isStrong, show (Symbol.global a).linkage = .appending from h]
  exact Bool.and_true _

theorem bothAppending?_of_joinable {e : Symbol} (he : joinable e) (hs : joinable sym) :
    (bothAppending? e sym).isSome := by
  cases e with
  | function f => cases he
  | global a =>
    cases sym with
    | function f => cases hs
    | global b =>
      simp only [joinable, Bool.and_eq_true] at he hs
      simp [bothAppending?, he.1, hs.1]

/-- What the verdict on two symbols of one name says about their strength. -/
theorem verdict_strength (e sym : Symbol) :
    match verdict (some e) sym with
    | .keep => isStrong sym = false
    | .take => isStrong e = false
    | .concat _ _ => isStrong e = true ∧ isStrong sym
    | .clash => isStrong e = true ∧ isStrong sym ∧ bothAppending? e sym = none := by
  unfold verdict
  by_cases hn : sym.isDeclaration
  · simp [hn, isStrong]
  by_cases hd : e.isDeclaration
  · simp [hn, hd, isStrong]
  rw [Bool.not_eq_true] at hn hd
  cases hb : bothAppending? e sym with
  | some p =>
    obtain ⟨rfl, rfl, ha, hb'⟩ := bothAppending?_eq_some hb
    simp only [hn, hd, hb]
    rw [isStrong_global ha, isStrong_global hb']
    exact ⟨congrArg (!·) hd, congrArg (!·) hn⟩
  | none =>
    by_cases ho : sym.linkage.isOverridable
    · simp [hd, hb, ho, isStrong]
    by_cases hx : e.linkage.isOverridable
    · simp [hn, hb, ho, hx, isStrong]
    · simp [hn, hd, hb, ho, hx, isStrong]

theorem exists_settles_iff :
    (∃ r, Settles existing sym r) ↔ ∀ e, existing = some e → Meet e sym := by
  cases existing with
  | none => exact iff_of_true ⟨sym, rfl⟩ fun e he => by cases he
  | some e =>
    have hv := verdict_strength e sym
    unfold Settles
    cases hc : verdict (some e) sym with
    | keep =>
      rw [hc] at hv
      exact iff_of_true ⟨e, rfl⟩ fun _ _ _ hs => nomatch hv.symm.trans hs
    | take =>
      rw [hc] at hv
      refine iff_of_true ⟨sym, rfl⟩ fun e' he' hs => ?_
      rw [← Option.some.inj he', hv] at hs
      cases hs
    | concat a b =>
      rw [hc] at hv
      obtain ⟨he, rfl, ha, hb⟩ := verdict_concat hc
      obtain rfl := Option.some.inj he
      have hj := @joinArrays_isOk a.segment b.segment (Symbol.global b).name
      rw [← joinable_global ha, ← joinable_global hb] at hj
      constructor
      · rintro ⟨r, segment, hs, -⟩ e' he' - -
        rw [← Option.some.inj he']
        exact hj.1 ⟨segment, hs⟩
      · intro h
        obtain ⟨segment, hs⟩ := hj.2 (h _ rfl hv.1 hv.2)
        exact ⟨_, segment, hs, rfl⟩
    | clash =>
      rw [hc] at hv
      refine iff_of_false (fun ⟨_, h⟩ => h) fun h => ?_
      obtain ⟨h1, h2⟩ := h e rfl hv.1 hv.2.1
      exact nomatch hv.2.2 ▸ bothAppending?_of_joinable h1 h2

/-! ## Symbols under passages -/

/-- A passage that keeps what a text starts with, and whether a clear array can be divided. -/
structure Gentle (p : Passage) : Prop where
  lead : KeepsLead p.text
  clear : ∀ {text : String}, Clear text.toList →
    Clear (p.text text).toList ∧ splits (p.text text).toList = splits text.toList

section passages

variable (g : Merger) (src : IrModule)

theorem localNames_suffixed (side : Side) {y : String}
    (h : ((g.localNames src).side side).get? x = some y) :
    Suffixed x.toList y.toList := by
  obtain ⟨-, -, -, n, rfl⟩ := (localNames_sound g src).only h
  exact suffixed_numbered x n

theorem gentle_yielding : Gentle (g.yielding src) where
  lead := keepsLead_yielding g src
  clear h := h.rewritten (renameGlobals_rewritten h.2 fun hy => localNames_suffixed g src .dest hy)

theorem gentle_arrival : Gentle (g.arrival src) where
  lead := keepsLead_arrival g src
  clear h := by
    have htypes {x y : String} (hy : (g.typeNames src).get? x = some y) :
        Suffixed x.toList y.toList := by
      obtain ⟨-, n, rfl⟩ := (typeRenaming_sound g.dest (g.shifted src)).only hy
      exact suffixed_numbered x n
    obtain ⟨h1, e1⟩ :=
      h.rewritten (shiftNumbered_rewritten h.2 g.dest.nextMetadata g.dest.nextAttributeGroup)
    obtain ⟨h2, e2⟩ := h1.rewritten (renameTypes_rewritten h1.2 htypes)
    obtain ⟨h3, e3⟩ :=
      h2.rewritten (renameGlobals_rewritten h2.2 fun hy => localNames_suffixed g src .source hy)
    exact ⟨h3, e3.trans (e2.trans e1)⟩

end passages

variable {e r s sym : Symbol} {p : Passage} {m : IrModule}

/-- A symbol whose class no passage changes: no join changes what it is, and an array is clear. -/
structure RegularSymbol (s : Symbol) : Prop where
  steady : SteadySymbol s
  clear : ∀ a, s = .global a → a.linkage = .appending → Clear a.segment.toList

theorem RegularSymbol.passage (h : RegularSymbol s) (hp : Gentle p) :
    RegularSymbol (p.symbol s) ∧ isStrong (p.symbol s) = isStrong s ∧
    joinable (p.symbol s) = joinable s := by
  refine ⟨⟨h.steady.relabel hp.lead, ?_⟩,
    isStrong_relabel hp.lead h.steady.headed h.steady.kindFirst, ?_⟩
  · rintro b hb hl
    cases s with
    | function f => cases hb
    | global a =>
      obtain rfl := Symbol.global.inj hb
      have hla : a.linkage = .appending := (Global.linkage_mapText hp.lead a).symm.trans hl
      exact (hp.clear (h.clear a rfl hla)).1
  · cases s with
    | function f => rfl
    | global a =>
      have hl : ({ a.mapText p.text with name := p.name a.name } : Global).linkage = a.linkage :=
        Global.linkage_mapText hp.lead a
      show (decide (_ = Linkage.appending) && splits (p.text a.segment).toList) = _
      rw [hl, joinable]
      by_cases hla : a.linkage = .appending
      · rw [(hp.clear (h.clear a rfl hla)).2]
      · simp [hla]

theorem RegularSymbol.meet_left (he : RegularSymbol e) (hp : Gentle p) (s : Symbol) :
    Meet (p.symbol e) s ↔ Meet e s := by
  unfold Meet
  rw [(he.passage hp).2.1, (he.passage hp).2.2]

theorem meet_comm : Meet s s' ↔ Meet s' s := ⟨Meet.symm, Meet.symm⟩

theorem RegularSymbol.meet_passage (he : RegularSymbol e) (hs : RegularSymbol s) {q : Passage}
    (hp : Gentle p) (hq : Gentle q) : Meet (p.symbol e) (q.symbol s) ↔ Meet e s := by
  rw [he.meet_left hp, meet_comm, hs.meet_left hq, meet_comm]

theorem Settles.meet (h : Settles (some e) sym r) (he : RegularSymbol e) (hs : RegularSymbol sym) :
    RegularSymbol r ∧ ∀ s, Meet r s ↔ Meet e s ∧ Meet sym s := by
  have hv := verdict_strength e sym
  rcases h.cases with ⟨hc, h⟩ | ⟨hc, rfl⟩ | ⟨a, b, segment, hc, hj, rfl⟩
  · rw [hc] at hv
    obtain rfl := Option.some.inj h
    exact ⟨he, fun s => (and_iff_left fun hst => nomatch hv.symm.trans hst).symm⟩
  · rw [hc] at hv
    exact ⟨hs, fun s => (and_iff_right fun hst => nomatch hv.symm.trans hst).symm⟩
  · rw [hc] at hv
    obtain ⟨he', rfl, ha, hb⟩ := verdict_concat hc
    obtain rfl := Option.some.inj he'
    obtain ⟨hk, hd⟩ := kindSteady_joinArrays ha he.steady hj
    have hl : ({ a with segment } : Global).linkage = .appending := (linkage_joinArrays hj).trans ha
    obtain ⟨hcl, hsp⟩ := (he.clear a rfl ha).joinArrays (hs.clear b rfl hb) hj
    have hjn := joinArrays_isOk.1 ⟨segment, hj⟩
    rw [← joinable_global ha, ← joinable_global hb] at hjn
    refine ⟨⟨hk, ?_⟩, fun s => ?_⟩
    · rintro c hc' -
      exact Symbol.global.inj hc' ▸ hcl
    · -- all three are strong and can be concatenated, so each asks the same of a further symbol
      have hst : isStrong (.global { a with segment }) = true := by
        rw [isStrong_global hl, hd, ← isStrong_global ha]
        exact hv.1
      have hjr : joinable (.global { a with segment }) = true := (joinable_global hl).trans hsp
      simp only [Meet, hst, hjr, hv.1, hv.2, hjn.1, hjn.2, and_self]

theorem Settles.taken (h : Settles existing sym r)
    (hs : isStrong sym) (ha : isArray sym = false) : r = sym ∧ defines existing sym := by
  rcases h.cases with ⟨hc, rfl⟩ | ⟨hc, rfl⟩ | ⟨a, b, segment, hc, -⟩
  · have hv := verdict_strength r sym
    rw [hc, hs] at hv
    cases hv
  · rw [isStrong, Bool.and_eq_true] at hs
    exact ⟨rfl, by rw [defines, hc, hs.1]⟩
  · obtain ⟨-, rfl, -, hb⟩ := verdict_concat hc
    cases ha.symm.trans (decide_eq_true hb)

theorem Settles.kept (h : Settles (some e) sym r) (he : isStrong e)
    (ha : isArray e = false) : r = e ∧ defines (some e) sym = false := by
  rcases h.cases with ⟨hc, h⟩ | ⟨hc, rfl⟩ | ⟨a, b, segment, hc, -⟩
  · exact ⟨(Option.some.inj h).symm, by rw [defines, hc]⟩
  · have hv := verdict_strength e r
    rw [hc, he] at hv
    cases hv
  · obtain ⟨he', -, hl, -⟩ := verdict_concat hc
    obtain rfl := Option.some.inj he'
    cases ha.symm.trans (decide_eq_true hl)

/-! ## Two modules -/

/-- Header lines agree if one says nothing or both say the same. -/
def Concord (a b : String) : Prop := a = "" ∨ b = "" ∨ a = b

instance (a b : String) : Decidable (Concord a b) := inferInstanceAs (Decidable (_ ∨ _ ∨ _))

theorem Concord.symm {a b : String} (h : Concord a b) : Concord b a := by
  unfold Concord at *
  tauto

theorem agree_isSome_iff : (agree present incoming).isSome ↔ Concord present incoming := by
  unfold agree Concord
  simp only [String.isEmpty_iff, Bool.or_eq_true, decide_eq_true_eq]
  split_ifs with h1 h2
  · simp [h1]
  · exact iff_of_true rfl (h2.imp_right .inr)
  · tauto

/-- A header line that was taken over agrees with what both agreed with. -/
theorem agree_eq_some {new : String} (h : agree present incoming = some new) (w : String) :
    Concord new w ↔ Concord present w ∧ Concord incoming w := by
  unfold agree at h
  simp only [String.isEmpty_iff, Bool.or_eq_true, decide_eq_true_eq] at h
  split_ifs at h with h1 h2
  · obtain rfl := Option.some.inj h
    simp [h1, Concord]
  · obtain rfl := Option.some.inj h
    rcases h2 with rfl | rfl
    · simp [Concord]
    · simp

structure Compatible (m m' : IrModule) : Prop where
  triple : Concord m.targetTriple m'.targetTriple
  layout : Concord m.dataLayout m'.dataLayout
  symbols : ∀ {x s s'}, visible? m x = some s → visible? m' x = some s' → Meet s s'

theorem Compatible.symm {m' : IrModule} (h : Compatible m m') : Compatible m' m :=
  ⟨h.triple.symm, h.layout.symm, fun hs hs' => (h.symbols hs' hs).symm⟩

/-! ## One join -/

section merge

variable {g g' : Merger} {src : IrModule}

theorem checkTarget_isOk_iff : (∃ g1, g.checkTarget src = .ok g1) ↔
    Concord g.dest.targetTriple src.targetTriple ∧ Concord g.dest.dataLayout src.dataLayout := by
  rw [← agree_isSome_iff, ← agree_isSome_iff]
  unfold Merger.checkTarget
  cases agree g.dest.targetTriple src.targetTriple with
  | none => simp
  | some triple =>
    dsimp only
    cases agree g.dest.dataLayout src.dataLayout <;> simp

/-- A module can be joined exactly if its header lines agree and each visible symbol can be joined
with the one that stands under its name. -/
theorem merge_isOk_iff (hd : g.dest.WellNamed) (hs : src.WellNamed) :
    (∃ g', g.merge src = .ok g') ↔
      (Concord g.dest.targetTriple src.targetTriple ∧ Concord g.dest.dataLayout src.dataLayout) ∧
        ∀ x s e, visible? src x = some s → visible? g.dest x = some e →
          Meet ((g.yielding src).symbol e) ((g.arrival src).symbol s) := by
  rw [← checkTarget_isOk_iff]
  have hmeet {x : String} {s : Symbol} : (∀ e, visible? g.dest x = some e →
      Meet ((g.yielding src).symbol e) ((g.arrival src).symbol s)) ↔
      ∃ r, Settles ((visible? g.dest x).map (g.yielding src).symbol)
      ((g.arrival src).symbol s) r := by
    rw [exists_settles_iff]
    simp only [Option.map_eq_some_iff, forall_exists_index, and_imp]
    exact ⟨fun h e' e he hee => hee ▸ h e he, fun h e he => h _ e he rfl⟩
  constructor
  · rintro ⟨g', h⟩
    obtain ⟨g1, -, -, -, -, ⟨hc, -⟩, -⟩ := merge_ok h
    refine ⟨⟨g1, hc⟩, fun x s e hx => hmeet.2 ?_ e⟩
    obtain ⟨r, hr, -⟩ := (merge_step hd hs h).meets hx
    exact ⟨r, hr⟩
  · rintro ⟨⟨g1, hc⟩, h⟩
    cases hm : g.merge src with
    | ok g' => exact ⟨g', rfl⟩
    | error b =>
      exfalso
      rcases merge_error hm with hc' | ⟨-, triple, layout, filename, -, hj⟩
      · rw [hc] at hc'
        cases hc'
      have hw := wellNamed_arrived g hs
      obtain ⟨sym, hsym, hv⟩ := mergeSymbols_error (wellNamed_yielded hd) (headed_symbolsInOrder hw)
        (nodup_symbolsInOrder hw) hj
      obtain ⟨x, s, hx, hn, rfl⟩ := (symbol?_arrived hs).1 ((mem_symbolsInOrder hw).1 hsym)
      cases hl : s.isLocal with
      | true =>
        -- where a local symbol comes, nothing stands
        rw [← hn, symbol?_yielded_of_local hd hs hx hl] at hv
        rcases hv with ⟨hv, -⟩ | ⟨a, b, hv, -⟩ <;> cases hv
      | false =>
        have hx := visible?_eq_some.2 ⟨hx, hl⟩
        obtain ⟨r, hr⟩ := hmeet.1 fun e => h x s e hx
        rw [← hn, arrival_name_of_visible? hs hx, symbol?_yielded_of_visible? hd hs hx] at hv
        unfold Settles at hr
        rcases hv with ⟨hv, -⟩ | ⟨a, b, hv, he⟩
        · rw [hv] at hr
          exact hr
        · rw [hv] at hr
          obtain ⟨segment, hr, -⟩ := hr
          rw [← arrival_name_of_visible? hs hx, hn, hr] at he
          cases he

end merge

/-! ## What holds of every run -/

def ArraysClear (m : IrModule) : Prop :=
  ∀ a ∈ m.globals.values, a.linkage = .appending → Clear a.segment.toList

instance (m : IrModule) : Decidable (ArraysClear m) :=
  inferInstanceAs (Decidable (∀ a ∈ m.globals.values, _ → _))

/-- A module with its symbols under their own names, in which no join changes what a symbol is. -/
@[mk_iff] structure Reorderable (m : IrModule) : Prop where
  wellNamed : m.WellNamed
  kindSteady : KindSteady m
  arraysClear : ArraysClear m

instance (m : IrModule) : Decidable (Reorderable m) := decidable_of_iff' _ (reorderable_iff ..)

/-- A module that was read is reorderable if no join changes what a global value or an array of it
is. -/
theorem reorderable_of_parse {text : String} (h : IrModule.parse text identifier = .ok m)
    (hd : ∀ x ∈ m.functions.keys, x ∉ m.globals.keys) (hk : KindSteady m)
    (ha : ∀ a ∈ m.globals.values, a.linkage = .appending → bracketsFixed a.segment.toList) :
    Reorderable m := by
  refine ⟨(keyed_of_parse h).wellNamed hd, hk, fun a hmem hl => ⟨ha a hmem hl, fun hn => ?_⟩⟩
  obtain ⟨e, he, rfl⟩ := mem_map.1 hmem
  have hf : Flush e.2.segment := ((fromLines_of_parse h).1.globals e he).2
  exact absurd (hf.breakless _ hn) (by decide)

theorem Reorderable.regular (hm : Reorderable m) (h : m.symbol? x = some s) : RegularSymbol s := by
  cases s with
  | function f => exact ⟨hm.wellNamed.headed h, nofun⟩
  | global a =>
    have hmem : a ∈ m.globals.values := Table.mem_values.2 ⟨x, holds_of_symbol? h⟩
    exact ⟨hm.kindSteady a hmem, fun b hb => Symbol.global.inj hb ▸ hm.arraysClear a hmem⟩

/-- What stands under a name after some modules were joined: it meets what the symbols of that name
in all of them meet. -/
structure Standing (ms : List IrModule) (x : String) (e : Symbol) : Prop where
  regular : RegularSymbol e
  meets : ∀ sym, Meet e sym ↔ ∀ m ∈ ms, ∀ s, visible? m x = some s → Meet s sym

/-- The destination speaks for the modules that were joined into it: for their header lines, for the
symbols of each name, and, where one of them has a strong definition that is no array, by that very
definition. -/
structure Represents (g : Merger) (js : List Joined) : Prop where
  composed : Composed js g
  reorderable : ∀ j ∈ js, Reorderable j.source
  triple : ∀ w, Concord g.dest.targetTriple w ↔ ∀ j ∈ js, Concord j.source.targetTriple w
  layout : ∀ w, Concord g.dest.dataLayout w ↔ ∀ j ∈ js, Concord j.source.dataLayout w
  standing : ∀ {x e}, visible? g.dest x = some e → Standing (js.map Joined.source) x e
  supplied : ∀ j ∈ js, ∀ {x s}, visible? j.source x = some s → isStrong s → isArray s = false →
    visible? g.dest x = some (j.passage.symbol s) ∧ g.definer.get? x = some j.source.identifier

section run

variable {g g' : Merger} {js : List Joined} {src : IrModule}

theorem Represents.empty (identifier : String) : Represents (.empty identifier) [] where
  composed := .empty identifier
  reorderable := nofun
  triple _ := iff_of_true (.inl rfl) nofun
  layout _ := iff_of_true (.inl rfl) nofun
  standing := nofun
  supplied := nofun

theorem Represents.standing_snoc (h : Represents g js) (hs : Reorderable src)
    (hm : MergeStep g src g')
    (hr : visible? g'.dest x = some r) : Standing (js.map Joined.source ++ [src]) x r := by
  have hd := h.composed.wellNamed
  have hsnoc (sym : Symbol) : (∀ m ∈ js.map Joined.source ++ [src], ∀ s, visible? m x = some s →
      Meet s sym) ↔ (∀ m ∈ js.map Joined.source, ∀ s, visible? m x = some s → Meet s sym) ∧
        ∀ s, visible? src x = some s → Meet s sym := by
    rw [forall_mem_append, forall_mem_singleton]
  cases hv : visible? src x with
  | none =>
    rw [hm.visible?_stays hd hs.wellNamed hv] at hr
    obtain ⟨e, he, rfl⟩ := Option.map_eq_some_iff.1 hr
    have hst := h.standing he
    refine ⟨(hst.regular.passage (gentle_yielding g src)).1, fun sym => ?_⟩
    rw [hst.regular.meet_left (gentle_yielding g src), hst.meets, hsnoc, hv]
    simp
  | some s =>
    have hsr := hs.regular (visible?_eq_some.1 hv).1
    obtain ⟨r', hset, hx, -⟩ := hm.meets hv
    obtain rfl := Option.some.inj ((visible?_eq_some.1 hr).1.symm.trans hx)
    cases he : visible? g.dest x with
    | none =>
      -- nothing stood there, so no module before has a visible symbol of that name
      rw [he] at hset
      obtain rfl : r = (g.arrival src).symbol s := hset
      refine ⟨(hsr.passage (gentle_arrival g src)).1, fun sym => ?_⟩
      rw [hsr.meet_left (gentle_arrival g src), hsnoc, hv]
      simp only [Option.some.injEq, forall_eq']
      refine (and_iff_right fun m hm' s' hs' => ?_).symm
      obtain ⟨j, hj, rfl⟩ := mem_map.1 hm'
      exact nomatch he ▸ (h.composed.visible j hj hs').2
    | some e =>
      have hst := h.standing he
      rw [he] at hset
      obtain ⟨hr', hmr⟩ := Settles.meet hset (hst.regular.passage (gentle_yielding g src)).1
        (hsr.passage (gentle_arrival g src)).1
      refine ⟨hr', fun sym => ?_⟩
      rw [hmr, hst.regular.meet_left (gentle_yielding g src), hsr.meet_left (gentle_arrival g src),
        hst.meets, hsnoc, hv]
      simp only [Option.some.injEq, forall_eq']

theorem Represents.supplied_snoc (h : Represents g js) (hs : Reorderable src)
    (hm : MergeStep g src g') :
    ∀ j ∈ g.advance src js, ∀ {x s}, visible? j.source x = some s → isStrong s → isArray s = false →
      visible? g'.dest x = some (j.passage.symbol s) ∧
      g'.definer.get? x = some j.source.identifier := by
  intro j hj x s hx hst ha
  rcases mem_advance hj with ⟨i, hi, rfl⟩ | rfl
  · -- the definition stands, and whatever comes leaves it
    obtain ⟨hvis, hdef⟩ := h.supplied i hi hx hst ha
    have hreg := (h.reorderable i hi).regular (visible?_eq_some.1 hx).1
    have hlead := (h.composed.source i hi).2
    have hst' : isStrong ((g.yielding src).symbol (i.passage.symbol s)) := by
      rw [((h.standing hvis).regular.passage (gentle_yielding g src)).2.1]
      exact (isStrong_relabel hlead hreg.steady.headed hreg.steady.kindFirst).trans hst
    have ha' : isArray ((g.yielding src).symbol (i.passage.symbol s)) = false :=
      (isArray_relabel (keepsLead_yielding g src) _).trans ((isArray_relabel hlead s).trans ha)
    have hl' : ((g.yielding src).symbol (i.passage.symbol s)).isLocal = false :=
      yielding_visible h.composed.wellNamed hvis
    rw [Joined.symbol_andThen]
    cases hv : visible? src x with
    | none =>
      obtain ⟨h1, h2⟩ := hm.stays hvis hv
      exact ⟨visible?_eq_some.2 ⟨h1, hl'⟩, h2.trans hdef⟩
    | some s' =>
      obtain ⟨r, hset, hx', -, hdef'⟩ := hm.meets hv
      rw [hvis] at hset hdef'
      obtain ⟨rfl, hdf⟩ := Settles.kept hset hst' ha'
      exact ⟨visible?_eq_some.2 ⟨hx', hl'⟩, (hdef' hdf rfl).trans hdef⟩
  · obtain ⟨r, hset, hx', hdef, -⟩ := hm.meets hx
    have hreg := hs.regular (visible?_eq_some.1 hx).1
    obtain ⟨rfl, hdf⟩ := hset.taken ((hreg.passage (gentle_arrival g src)).2.1.trans hst)
      ((isArray_relabel (keepsLead_arrival g src) s).trans ha)
    exact ⟨visible?_eq_some.2 ⟨hx', arrival_visible hs.wellNamed hx⟩, hdef hdf⟩

theorem Represents.snoc (h : Represents g js) (hs : Reorderable src) (hm : g.merge src = .ok g') :
    Represents g' (g.advance src js) := by
  have hstep := merge_step h.composed.wellNamed hs.wellNamed hm
  obtain ⟨ht, hl, -⟩ := merge_rest hm
  refine ⟨h.composed.snoc hs.wellNamed hm, forall_mem_advance.2 ⟨h.reorderable, hs⟩, fun w => ?_,
    fun w => ?_, ?_, h.supplied_snoc hs hstep⟩
  · rw [agree_eq_some ht, h.triple, forall_mem_advance (P := fun m => Concord m.targetTriple w)]
  · rw [agree_eq_some hl, h.layout, forall_mem_advance (P := fun m => Concord m.dataLayout w)]
  · intro x e he
    rw [sources_advance]
    exact h.standing_snoc hs hstep he

theorem trackAll_represents {modules : List IrModule} (ho : ∀ m ∈ modules, Reorderable m)
    (h : trackAll identifier modules = .ok (g, js)) : Represents g js := by
  exact trackAll_invariant (.empty identifier) Represents.snoc ho h

/-- A further module can be joined exactly if it is compatible with each that was joined. -/
theorem Represents.isOk_iff (h : Represents g js) (hs : Reorderable src) :
    (∃ g', g.merge src = .ok g') ↔ ∀ j ∈ js, Compatible j.source src := by
  have hmeet {x : String} {s e : Symbol} (hx : visible? src x = some s)
      (he : visible? g.dest x = some e) :
      Meet ((g.yielding src).symbol e) ((g.arrival src).symbol s) ↔ Meet e s :=
    (h.standing he).regular.meet_passage (hs.regular (visible?_eq_some.1 hx).1)
      (gentle_yielding g src)
      (gentle_arrival g src)
  rw [merge_isOk_iff h.composed.wellNamed hs.wellNamed, h.triple, h.layout]
  constructor
  · rintro ⟨⟨ht, hl⟩, hm⟩ j hj
    refine ⟨ht j hj, hl j hj, fun hx hx' => ?_⟩
    obtain ⟨e, he⟩ := Option.isSome_iff_exists.1 (h.composed.visible j hj hx).2
    exact ((h.standing he).meets _).1 ((hmeet hx' he).1 (hm _ _ e hx' he))
      _ (mem_map_of_mem hj) _ hx
  · intro hc
    refine ⟨⟨fun j hj => (hc j hj).triple, fun j hj => (hc j hj).layout⟩, fun x s e hx he => ?_⟩
    refine (hmeet hx he).2 (((h.standing he).meets s).2 fun m hm s' hs' => ?_)
    obtain ⟨j, hj, rfl⟩ := mem_map.1 hm
    exact (hc j hj).symbols hs' hx

end run

variable {identifier : String} {modules : List IrModule}

theorem exists_mergeAll_snoc {ms : List IrModule} {src : IrModule} :
    (∃ g', mergeAll identifier (ms ++ [src]) = .ok g') ↔
      ∃ g, mergeAll identifier ms = .ok g ∧ ∃ g', g.merge src = .ok g' := by
  unfold mergeAll
  rw [foldlM_append]
  cases ms.foldlM Merger.merge (.empty identifier) with
  | error b => exact iff_of_false nofun nofun
  | ok g =>
    have hs : (Except.ok g >>= fun g => [src].foldlM Merger.merge g) = g.merge src :=
      bind_pure (g.merge src)
    rw [hs]
    simp

theorem mergeAll_isOk_iff (ho : ∀ m ∈ modules, Reorderable m) :
    (∃ g, mergeAll identifier modules = .ok g) ↔ modules.Pairwise Compatible := by
  induction modules using reverseRecOn with
  | nil => exact iff_of_true ⟨_, rfl⟩ .nil
  | append_singleton ms src ih =>
    obtain ⟨hms, hsrc⟩ := forall_mem_append.1 ho
    -- the last module is asked about the destination, and so about each module before
    have hlast {g : Merger} (hg : mergeAll identifier ms = .ok g) :
        (∃ g', g.merge src = .ok g') ↔ ∀ m ∈ ms, Compatible m src := by
      obtain ⟨js, hj⟩ := exists_trackAll hg
      rw [(trackAll_represents hms hj).isOk_iff (hsrc src mem_cons_self), ← sources_trackAll hj,
        forall_mem_map]
    rw [exists_mergeAll_snoc, pairwise_append, ← ih hms]
    simp only [pairwise_singleton, true_and, mem_singleton, forall_eq]
    constructor
    · rintro ⟨g, hg, hm⟩
      exact ⟨⟨g, hg⟩, (hlast hg).1 hm⟩
    · rintro ⟨⟨g, hg⟩, hc⟩
      exact ⟨g, hg, (hlast hg).2 hc⟩

theorem visible?_trackAll (ho : ∀ m ∈ modules, Reorderable m)
    {js : List Joined} (h : trackAll identifier modules = .ok (g, js)) (x : String) :
    (visible? g.dest x).isSome ↔ ∃ m ∈ modules, (visible? m x).isSome := by
  have hc := (trackAll_represents ho h).composed
  rw [← sources_trackAll h]
  constructor
  · intro hx
    obtain ⟨r, hr⟩ := Option.isSome_iff_exists.1 hx
    rcases hc.origin_visible hr with ⟨j, hj, s, hs, -⟩ | ⟨-, j, hj, hs⟩
    · exact ⟨_, mem_map_of_mem hj, by rw [hs]; rfl⟩
    · exact ⟨_, mem_map_of_mem hj, hs⟩
  · rintro ⟨m, hm, hx⟩
    obtain ⟨j, hj, rfl⟩ := mem_map.1 hm
    obtain ⟨s, hs⟩ := Option.isSome_iff_exists.1 hx
    exact (hc.visible j hj hs).2

/-- The module supplies a name: after the run the destination holds its symbol, as the joins rewrote
it, and has the module on record for it. -/
def Supplies (identifier : String) (modules : List IrModule) (m : IrModule) (x : String) : Prop :=
  ∃ g js, trackAll identifier modules = .ok (g, js) ∧ ∃ j ∈ js, j.source = m ∧
    ∃ s, visible? m x = some s ∧
    visible? g.dest x = some (j.passage.symbol s) ∧ g.definer.get? x = some m.identifier

theorem supplies_of_strong (ho : ∀ m ∈ modules, Reorderable m)
    (h : mergeAll identifier modules = .ok g) (hm : m ∈ modules)
    (hx : visible? m x = some s) (hs : isStrong s) (ha : isArray s = false) :
    Supplies identifier modules m x := by
  obtain ⟨js, hj⟩ := exists_trackAll h
  rw [← sources_trackAll hj] at hm
  obtain ⟨j, hjm, rfl⟩ := mem_map.1 hm
  obtain ⟨h1, h2⟩ := (trackAll_represents ho hj).supplied j hjm hx hs ha
  exact ⟨g, js, hj, j, hjm, rfl, s, hx, h1, h2⟩

/-- **The order of modules.** Reorderable modules can be joined in one order exactly if they can be
joined in another. Then both destinations show the same names to other modules, and a name with a
strong definition that is no array is supplied by the same module in both. -/
theorem order_immaterial (identifier : String) {modules modules' : List IrModule}
    (ho : ∀ m ∈ modules, Reorderable m) (hp : modules.Perm modules') :
    ((∃ g, mergeAll identifier modules = .ok g) ↔ ∃ g', mergeAll identifier modules' = .ok g') ∧
      ∀ g g', mergeAll identifier modules = .ok g → mergeAll identifier modules' = .ok g' →
        (∀ x, (visible? g.dest x).isSome = true ↔ (visible? g'.dest x).isSome = true) ∧
          ∀ m ∈ modules, ∀ x s, visible? m x = some s → isStrong s = true → isArray s = false →
            Supplies identifier modules m x ∧ Supplies identifier modules' m x := by
  have ho' : ∀ m ∈ modules', Reorderable m := fun m hm => ho m (hp.mem_iff.2 hm)
  refine ⟨?_, fun g g' h h' => ⟨fun x => ?_, fun m hm x s hx hs ha => ?_⟩⟩
  · rw [mergeAll_isOk_iff ho, mergeAll_isOk_iff ho', hp.pairwise_iff fun h => h.symm]
  · obtain ⟨js, hj⟩ := exists_trackAll h
    obtain ⟨js', hj'⟩ := exists_trackAll h'
    rw [visible?_trackAll ho hj, visible?_trackAll ho' hj']
    simp only [hp.mem_iff]
  · exact ⟨supplies_of_strong ho h hm hx hs ha,
      supplies_of_strong ho' h' (hp.mem_iff.1 hm) hx hs ha⟩

/-- A declaration, an overridable and a strong definition of `x`, with arrays and local symbols of
one name beside them, and an array without elements. -/
def sampleShuffled : List IrModule := readAll
  [("a", "@x = external global i32\n@s = internal global ptr @x\n" ++
      "@v = appending global [1 x ptr] [ptr @s]\n"),
   ("b", "target triple = \"t\"\n@x = weak global i32 1\n@s = private constant i32 2\n" ++
      "@v = appending global [1 x ptr] [ptr @s], section \"llvm.metadata\"\n"),
   ("c", "target triple = \"t\"\n@x = global i32 3\n" ++
      "@w = appending global [0 x ptr] zeroinitializer, section \"w\"\n")]

set_option maxRecDepth 100000 in
theorem sampleShuffled_supplied : sampleShuffled.map IrModule.identifier = ["a", "b", "c"] ∧
    (∀ m ∈ sampleShuffled, Reorderable m) ∧ sampleShuffled.Perm sampleShuffled.reverse ∧
    ∃ g g', mergeAll "" sampleShuffled = .ok g ∧ mergeAll "" sampleShuffled.reverse = .ok g' ∧
      (∀ x, (visible? g.dest x).isSome = true ↔ (visible? g'.dest x).isSome = true) ∧
      ∃ m ∈ sampleShuffled, m.identifier = "c" ∧ Supplies "" sampleShuffled m "x" ∧
        Supplies "" sampleShuffled.reverse m "x" := by
  have hread : (∀ m ∈ sampleShuffled, (∀ x ∈ m.functions.keys, x ∉ m.globals.keys) ∧
      KindSteady m ∧ ∀ a ∈ m.globals.values, a.linkage = .appending →
        bracketsFixed a.segment.toList = true) ∧
      sampleShuffled.map identifier = ["a", "b", "c"] ∧
      (mergeAll "" sampleShuffled).isOk = true ∧ ∃ m ∈ sampleShuffled, m.identifier = "c" ∧
        (visible? m "x").any (fun s => isStrong s && !isArray s) = true := by decide +kernel
  obtain ⟨hread, hids, hok, m, hm, hid, hx⟩ := hread
  have ho : ∀ m ∈ sampleShuffled, Reorderable m := by
    intro m hm
    obtain ⟨text, name, h⟩ := parse_of_mem_readAll hm
    obtain ⟨hd, hk, ha⟩ := hread m hm
    exact reorderable_of_parse h hd hk ha
  have hp := (reverse_perm sampleShuffled).symm
  obtain ⟨g, hg⟩ := exists_eq_ok hok
  obtain ⟨hiff, hboth⟩ := order_immaterial "" ho hp
  obtain ⟨g', hg'⟩ := hiff.1 ⟨g, hg⟩
  obtain ⟨hnames, hsup⟩ := hboth g g' hg hg'
  obtain ⟨s, hs, hst⟩ := (Option.any_eq_true _ _).1 hx
  rw [Bool.and_eq_true, Bool.not_eq_true'] at hst
  exact ⟨hids, ho, hp, g, g', hg, hg', hnames, m, hm, hid, hsup m hm "x" s hs hst.1 hst.2⟩

/-- Modules whose order counts: a reference stands before the kind word of `x`, a reference stands
for the type of the array `x`, and `f` is local. -/
def orderedPairs : List (List IrModule) :=
  [readAll [("a", "%\"s global t\" = type \x7b i32 \x7d\n@x = global i32 1\n"),
    ("b", "%\"s global t\" = type \x7b i64 \x7d\n" ++
      "@x = external %\"s\\20global\\20t\" alias i32, ptr @x\n")],
   readAll [("a", "@\"[1 x i8] []\" = internal global i32 0\n" ++
      "@x = appending global @\"\\5B1 x i8\\5D \\5B\\5D\" zeroinitializer\n"),
    ("b", "@\"[1 x i8] []\" = internal global i32 0\n@x = appending global [1 x i8] [i8 1]\n")],
   readAll [("a", "@f = internal global i32 1\n"), ("b", "@f = internal global i32 2\n")]]

set_option maxRecDepth 100000 in
/-- What comes second is rewritten: the alias is taken for a declaration, and the reference is
written with the brackets of its new name. Of two local symbols the first keeps its name. -/
theorem orderedPairs_joined :
    (∀ ms ∈ orderedPairs, ms.map IrModule.identifier = ["a", "b"] ∧ ∀ m ∈ ms, m.WellNamed) ∧
      orderedPairs.map (fun ms => ((mergeAll "" ms).isOk, (mergeAll "" ms.reverse).isOk)) =
        [(true, false), (false, true), (true, true)] ∧
      (orderedPairs.getLast?.map fun ms => [ms, ms.reverse].map fun ms =>
        (mergeAll "" ms).toOption.bind fun g => g.definer.get? "f") = some [some "a",
        some "b"] := by
  decide +kernel

end CallAtlas.Link
