import CallAtlas.Proofs.Ir.Parsed
import CallAtlas.Proofs.Link.Arrays
import CallAtlas.Proofs.Link.Step

/-!
# The record of definitions

A destination keeps for each symbol that it defines the module which supplied the definition.
`Recorded` says that this record and the two tables of symbols fit together: each symbol stands
under its own name in one table, the record has exactly the names that are defined, and its modules
are among those that were joined. One symbol keeps this (`Recorded.symbol`), and so do new names in
the destination (`Recorded.yielded`); a join keeps it whether it succeeds or fails,
`Recorded.after`, since a failed join leaves what it reached.
-/

namespace CallAtlas.Link

open Ir IrModule List

/-! ## What a join reaches -/

/-- The destination that is left, by a join that succeeded or by one that failed. -/
def reached : Except Broken Merger → Merger
  | .ok g => g
  | .error b => b.left

def Merger.after (g : Merger) (src : IrModule) : Merger := reached (g.merge src)

/-- The destination after joins of which each goes on from what the one before left. -/
def afterAll (identifier : String) (modules : List IrModule) : Merger :=
  modules.foldl Merger.after (.empty identifier)

variable {origin : String} {sym : Symbol} {g g' : Merger} {src : IrModule} {m : IrModule}

/-- A symbol that cannot be joined leaves the destination as it was. -/
theorem mergeSymbol_left {b : Broken} (h : g.mergeSymbol origin sym = .error b) : b.left = g := by
  rw [mergeSymbol_eq] at h
  split at h
  · cases h
  · cases h
  · split at h
    · cases h
    · rw [← Except.error.inj h]
  · rw [← Except.error.inj h]

/-! ## Symbols that stay what they are -/

/-- The header of a function opens with its keyword, and no join changes what a global value is. -/
def SteadySymbol : Symbol → Prop
  | .function f => f.Headed
  | .global a => kindSteady a = true

theorem SteadySymbol.headed (h : SteadySymbol sym) : sym.Headed := by
  cases sym with
  | function f => exact h
  | global a => trivial

theorem SteadySymbol.kindFirst (h : SteadySymbol sym) : sym.kindFirst := by
  cases sym with
  | function f => rfl
  | global a => exact (kindSteady_iff.1 h).1

theorem SteadySymbol.relabel {text name : String → String} (ht : KeepsLead text)
    (h : SteadySymbol sym) :
    SteadySymbol (sym.relabel text name) := by
  cases sym with
  | function f => exact Function.headed_mapText ht h
  | global a => exact kindSteady_mapText ht h

def AllSteady (m : IrModule) : Prop := ∀ s ∈ symbolsInOrder m, SteadySymbol s

theorem allSteady_iff : AllSteady m ↔ (∀ f ∈ m.functions.values, f.Headed) ∧ ∀ a ∈ m.globals.values,
    kindSteady a := by
  unfold AllSteady symbolsInOrder
  rw [forall_mem_append, forall_mem_map, forall_mem_map]
  exact and_comm

theorem AllSteady.arrived (h : AllSteady src) (g : Merger) : AllSteady (g.arrived src) := by
  intro s hs
  obtain ⟨y, hs⟩ := mem_symbolsInOrder_iff.1 hs
  obtain ⟨x, u, z, hu, -, rfl, -⟩ := holds_arrived hs
  exact (h u (mem_symbolsInOrder_iff.2 ⟨x, hu⟩)).relabel (keepsLead_arrival g src)

/-! ## The record under new names -/

section renameKeys

variable {t mapping : Table String String}

/-- The name that a list of new names gives. -/
def newNameIn (es : List (String × String)) (x : String) : String := (Table.find x es).getD x

theorem newNameIn_of_not_mem {es : List (String × String)} {x : String} (h : x ∉ es.map Prod.fst) :
    newNameIn es x = x := by
  rw [newNameIn, Table.find_eq_none.2 h]
  rfl

/-- An entry is found under the new name of its key, if new names are given once and stand for no
key. -/
theorem get?_renameKeys_iff (hnew : ∀ e ∈ mapping.entries, e.2 ∉ t.keys ∧ e.2 ∉ mapping.keys)
    (hinj : mapping.values.Nodup) {y v : String} :
    (renameKeys t mapping).get? y = some v ↔ ∃ x, t.get? x = some v ∧ newName mapping x = y := by
  have hn : newName mapping = newNameIn mapping.entries := rfl
  have hd := mapping.distinct
  rw [hn]
  unfold renameKeys
  unfold Table.values at hinj
  unfold Table.keys at hnew
  generalize mapping.entries = es at hnew hinj hd ⊢
  induction es generalizing t with
  | nil => simp [newNameIn, Table.find]
  | cons e es ih =>
    rw [map_cons, nodup_cons] at hd hinj
    have hnew0 := hnew e mem_cons_self
    have hfst : newNameIn (e :: es) e.1 = e.2 := by simp [newNameIn, Table.find]
    have hother {x : String} (hx : e.1 ≠ x) : newNameIn (e :: es) x = newNameIn es x := by
      simp [newNameIn, Table.find, hx]
    have hsnd : newNameIn es e.2 = e.2 :=
      newNameIn_of_not_mem fun h => hnew0.2 (mem_cons_of_mem _ h)
    rw [foldl_cons]
    cases hg : t.get? e.1 with
    | none =>
      refine (ih (fun e' he' => ?_) hinj.2 hd.2).trans ?_
      · obtain ⟨h1, h2⟩ := hnew e' (mem_cons_of_mem _ he')
        exact ⟨h1, fun h => h2 (mem_cons_of_mem _ h)⟩
      refine exists_congr fun x => and_congr_right fun hx => ?_
      rw [hother]
      rintro rfl
      rw [hg] at hx
      cases hx
    | some w =>
      have hget (x : String) : ((t.erase e.1).insert e.2 w).get? x =
          if e.2 = x then some w else if e.1 = x then none else t.get? x := by
        rw [Table.get?_insert, Table.get?_erase]
      refine (ih (fun e' he' => ?_) hinj.2 hd.2).trans ?_
      · obtain ⟨h1, h2⟩ := hnew e' (mem_cons_of_mem _ he')
        refine ⟨fun hk => ?_, fun h => h2 (mem_cons_of_mem _ h)⟩
        have hk : e'.2 ∈ ((t.erase e.1).insert e.2 w).keys := hk
        rw [Table.mem_keys, hget] at hk
        split_ifs at hk with h3 h4
        · exact hinj.1 (h3 ▸ mem_map_of_mem he')
        · cases hk
        · exact h1 (Table.mem_keys.2 hk)
      · constructor
        · rintro ⟨x, hx, hy⟩
          rw [hget] at hx
          split_ifs at hx with h1 h2
          · obtain rfl := Option.some.inj hx
            refine ⟨e.1, hg, ?_⟩
            rw [hfst, ← hy, ← h1, hsnd]
          · exact ⟨x, hx, by rw [hother h2, hy]⟩
        · rintro ⟨x, hx, hy⟩
          by_cases h1 : e.1 = x
          · subst h1
            rw [hg] at hx
            refine ⟨e.2, by rw [hget, if_pos rfl, hx], ?_⟩
            rw [hsnd, ← hy, hfst]
          · refine ⟨x, ?_, by rw [← hother h1, hy]⟩
            rw [hget, if_neg, if_neg h1, hx]
            rintro rfl
            exact hnew0.1 (Table.mem_keys_of_get? hx)

end renameKeys

/-! ## One symbol -/

theorem eq_none_of_verdict_take {existing : Option Symbol} (h : verdict existing sym = .take)
    (hd : sym.isDeclaration) : existing = none := by
  cases existing with
  | none => rfl
  | some e => simp [verdict, hd] at h

theorem defined_of_verdict_concat {e : Symbol} {a b : Global}
    (h : verdict (some e) sym = .concat a b) :
    e.isDeclaration = false := by
  unfold verdict at h
  by_contra hd
  rw [Bool.not_eq_false] at hd
  simp only  at h
  split_ifs at h

/-- The record of definitions fits the symbols of the destination, which were joined from modules
with the given identifiers. -/
structure Recorded (ids : List String) (g : Merger) : Prop where
  wellNamed : g.dest.WellNamed
  steady : ∀ {x s}, g.dest.symbol? x = some s → SteadySymbol s
  /-- Exactly the symbols that are defined are on record. -/
  defined : ∀ x, (g.definer.get? x).isSome ↔ ∃ s, g.dest.symbol? x = some s ∧
    s.isDeclaration = false
  /-- Their modules were joined. -/
  origin : ∀ {x id}, g.definer.get? x = some id → id ∈ ids

variable {ids : List String}

theorem Recorded.empty (identifier : String) (ids : List String) :
    Recorded ids (.empty identifier) :=
  ⟨.empty identifier, nofun, fun _ => ⟨nofun, nofun⟩, nofun⟩

theorem Recorded.of_eq (h : Recorded ids g) (hf : g'.dest.functions = g.dest.functions)
    (hg : g'.dest.globals = g.dest.globals) (hd : g'.definer = g.definer) : Recorded ids g' := by
  have hs (x : String) : g'.dest.symbol? x = g.dest.symbol? x := by rw [symbol?, symbol?, hf, hg]
  refine ⟨⟨?_, ?_, ?_⟩, fun hx => h.steady (hs _ ▸ hx), fun x => ?_, fun hx => h.origin (hd ▸ hx)⟩
  · rw [hf]
    exact h.wellNamed.function
  · rw [hg]
    exact h.wellNamed.global
  · rw [hf, hg]
    exact h.wellNamed.disjoint
  · rw [hs, hd]
    exact h.defined x

/-- What is left under the name of a symbol is steady, and on record exactly if it is defined. -/
theorem Recorded.settled (h : Recorded ids g) (hs : SteadySymbol sym) {r : Symbol}
    (hstep : SymbolStep origin sym g g' r) :
    SteadySymbol r ∧ ((g'.definer.get? sym.name).isSome ↔ r.isDeclaration = false) := by
  have hdef := hstep.definer sym.name
  have hold := h.defined sym.name
  unfold defines at hdef
  rcases hstep.settles.cases with ⟨hv, hset⟩ | ⟨hv, rfl⟩ | ⟨a, b, segment, hv, hj, rfl⟩
  · simp only [hv, Bool.false_eq_true, false_and, if_false] at hdef
    rw [hset] at hold
    refine ⟨h.steady hset, ?_⟩
    rw [hdef, hold]
    simp
  · simp only [hv, Bool.not_eq_true', and_true] at hdef
    refine ⟨hs, ?_⟩
    cases hd : r.isDeclaration with
    | false =>
      rw [hdef, if_pos hd]
      simp
    | true =>
      -- a declaration came where nothing stood, so nothing is on record
      rw [eq_none_of_verdict_take hv hd] at hold
      rw [hdef, if_neg (by rw [hd]; simp), hold]
      simp
  · simp only [hv, Bool.false_eq_true, false_and, if_false] at hdef
    obtain ⟨he, -, hl, -⟩ := verdict_concat hv
    rw [he] at hv
    obtain ⟨hk, hd⟩ := kindSteady_joinArrays hl (h.steady he) hj
    refine ⟨hk, ?_⟩
    rw [hdef, hold, he]
    refine iff_of_true ⟨_, rfl, defined_of_verdict_concat hv⟩ ?_
    show ({ a with segment } : Global).isDeclaration = false
    rw [hd]
    exact defined_of_verdict_concat hv

theorem Recorded.symbol (h : Recorded ids g) (hs : SteadySymbol sym) (hi : origin ∈ ids)
    (hm : g.mergeSymbol origin sym = .ok g') : Recorded ids g' := by
  obtain ⟨r, hstep⟩ := mergeSymbol_step h.wellNamed hs.headed hm
  obtain ⟨hr, hrec⟩ := h.settled hs hstep
  refine ⟨hstep.dest.wellNamed, ?_, ?_, ?_⟩
  · intro x s hx
    rw [hstep.dest.symbol?] at hx
    split_ifs at hx with hn
    · rw [← Option.some.inj hx]
      exact hr
    · exact h.steady hx
  · intro x
    by_cases hn : sym.name = x
    · subst hn
      rw [hrec, hstep.dest.symbol?]
      simp
    · rw [(hstep.frame hn).1, (hstep.frame hn).2]
      exact h.defined x
  · intro x id hx
    rw [hstep.definer] at hx
    split_ifs at hx
    · rw [← Option.some.inj hx]
      exact hi
    · exact h.origin hx

theorem Recorded.symbols (h : Recorded ids g) {syms : List Symbol} (hs : ∀ s ∈ syms, SteadySymbol s)
    (hi : origin ∈ ids) : Recorded ids (reached (syms.foldlM (Merger.mergeSymbol origin) g)) := by
  induction syms generalizing g with
  | nil => exact h
  | cons s syms ih =>
    obtain ⟨hs0, hs⟩ := forall_mem_cons.1 hs
    rw [foldlM_cons]
    cases hm : g.mergeSymbol origin s with
    | error b =>
      show Recorded ids b.left
      rw [mergeSymbol_left hm]
      exact h
    | ok g1 => exact ih (h.symbol hs0 hi hm) hs

/-! ## One module -/

section yielded

variable {triple layout filename : String}

theorem Recorded.get?_yielded (h : Recorded ids g) {y id : String} :
    (g.yielded src triple layout filename).definer.get? y = some id ↔
      ∃ x, g.definer.get? x = some id ∧ (g.yielding src).name x = y := by
  have hn := localNames_sound g src
  have hold {e : String × String} (he : e ∈ (g.localNames src).dest.entries) :
      e.1 ∈ g.dest.symbolNames ∧ e.2 ∉ g.dest.symbolNames := by
    obtain ⟨hs, -, hnew, -⟩ := hn.only (s := .dest) (Table.get?_eq_some.2 he)
    exact ⟨mem_symbolNames.2 (mem_filter.1 hs).2, fun hm => hnew (mem_append_left _ hm)⟩
  refine get?_renameKeys_iff (fun e he => ⟨fun hk => ?_, fun hk => ?_⟩) ?_
  · obtain ⟨s, hs, -⟩ := (h.defined e.2).1 (Table.mem_keys.1 hk)
    exact (hold he).2 (mem_symbolNames_of_symbol? hs)
  · obtain ⟨e', he', hk⟩ := mem_map.1 hk
    exact (hold he).2 (hk ▸ (hold he').1)
  · refine Nodup.map_on ?_ (Nodup.of_map _ (g.localNames src).dest.distinct)
    intro e he e' he' hv
    have hget : ((g.localNames src).side .dest).get? e'.1 = some e.2 :=
      Table.get?_eq_some.2 (hv ▸ he')
    exact Prod.ext (hn.inj (s := .dest) (Table.get?_eq_some.2 he) hget).2 hv

theorem Recorded.yielded (h : Recorded ids g) :
    Recorded ids (g.yielded src triple layout filename) := by
  have ht := keepsLead_yielding g src
  refine ⟨wellNamed_yielded h.wellNamed, ?_, ?_, ?_⟩
  · intro y s hy
    obtain ⟨x, s, hx, -, rfl⟩ := (symbol?_yielded h.wellNamed).1 hy
    exact (h.steady hx).relabel ht
  · intro y
    rw [Option.isSome_iff_exists]
    constructor
    · rintro ⟨id, hid⟩
      obtain ⟨x, hx, hn⟩ := h.get?_yielded.1 hid
      obtain ⟨s, hs, hd⟩ := (h.defined x).1 (by rw [hx]; rfl)
      refine ⟨_, (symbol?_yielded h.wellNamed).2 ⟨x, s, hs, hn, rfl⟩, ?_⟩
      exact (Symbol.isDeclaration_relabel ht (h.steady hs).kindFirst).trans hd
    · rintro ⟨s', hs', hd⟩
      obtain ⟨x, s, hs, hn, rfl⟩ := (symbol?_yielded h.wellNamed).1 hs'
      have hd : s.isDeclaration = false :=
        (Symbol.isDeclaration_relabel ht (h.steady hs).kindFirst).symm.trans hd
      obtain ⟨id, hid⟩ := Option.isSome_iff_exists.1 ((h.defined x).2 ⟨s, hs, hd⟩)
      exact ⟨id, h.get?_yielded.2 ⟨x, hid, hn⟩⟩
  · intro y id hy
    obtain ⟨x, hx, -⟩ := h.get?_yielded.1 hy
    exact h.origin hx

end yielded

theorem checkTarget_left {b : Broken} (h : g.checkTarget src = .error b) :
    b.left.dest.functions = g.dest.functions ∧ b.left.dest.globals = g.dest.globals ∧
    b.left.definer = g.definer := by
  unfold Merger.checkTarget at h
  split at h
  · rw [← Except.error.inj h]
    exact ⟨rfl, rfl, rfl⟩
  · dsimp only at h
    split at h
    · rw [← Except.error.inj h]
      exact ⟨rfl, rfl, rfl⟩
    · cases h

theorem Recorded.after (h : Recorded ids g) (hs : AllSteady src) (hi : src.identifier ∈ ids) :
    Recorded ids (g.after src) := by
  have hjoin (triple layout filename : String) :
      Recorded ids (reached (joinSymbols g src triple layout filename)) :=
    h.yielded.symbols (hs.arrived g) hi
  unfold Merger.after
  cases hm : g.merge src with
  | error b =>
    rcases merge_error hm with hc | ⟨g1, triple, layout, filename, -, hj⟩
    · obtain ⟨hf, hg, hd⟩ := checkTarget_left hc
      exact h.of_eq hf hg hd
    · have := hjoin triple layout filename
      rwa [hj] at this
  | ok g' =>
    obtain ⟨g1, triple, layout, filename, g2, -, hj, rfl⟩ := merge_ok hm
    have hr := hjoin triple layout filename
    rw [hj] at hr
    obtain ⟨named, he⟩ :=
      mergeRest_with g2.dest (g.arrived src) g.dest.nextMetadata g.dest.nextAttributeGroup
    exact hr.of_eq (congrArg functions he :) (congrArg globals he :) rfl

theorem Recorded.foldl {modules : List IrModule} (h : Recorded ids g)
    (hs : ∀ m ∈ modules, AllSteady m ∧ m.identifier ∈ ids) :
    Recorded ids (modules.foldl Merger.after g) := by
  induction modules generalizing g with
  | nil => exact h
  | cons m modules ih =>
    obtain ⟨hm, hs⟩ := forall_mem_cons.1 hs
    exact ih (h.after hm.1 hm.2) hs

/-- No join changes what a global value of the module is. -/
def KindSteady (m : IrModule) : Prop := ∀ a ∈ m.globals.values, kindSteady a

instance (m : IrModule) : Decidable (KindSteady m) :=
  inferInstanceAs (Decidable (∀ a ∈ m.globals.values, _))

theorem allSteady_of_parse {text identifier : String} (h : IrModule.parse text identifier = .ok m)
    (hk : KindSteady m) : AllSteady m := by
  refine allSteady_iff.2 ⟨fun f hf => ?_, hk⟩
  obtain ⟨e, he, rfl⟩ := mem_map.1 hf
  exact ((keyed_of_parse h).function e he).2.headed

/-- **The record of definitions.** Modules that were read are joined one after the other, each into
what the one before left, whether that succeeded or failed. If no join changes what a global value
is, then no name is a function and a global value of the destination, each stands under its own
name, the record has exactly the names of the symbols that are defined, and its modules are among
those that were to be joined. -/
theorem definitions_recorded (identifier : String) {modules : List IrModule}
    (hp : ∀ m ∈ modules, ∃ text name, IrModule.parse text name = .ok m)
    (hk : ∀ m ∈ modules, KindSteady m) :
    (∀ x ∈ (afterAll identifier modules).dest.functions.keys,
      x ∉ (afterAll identifier modules).dest.globals.keys) ∧
      (∀ e ∈ (afterAll identifier modules).dest.functions.entries, e.2.name = e.1) ∧
      (∀ e ∈ (afterAll identifier modules).dest.globals.entries, e.2.name = e.1) ∧
      (∀ x, x ∈ (afterAll identifier modules).definer.keys ↔
        ∃ s ∈ symbolsInOrder (afterAll identifier modules).dest, s.name = x ∧
        s.isDeclaration = false) ∧
      ∀ id ∈ (afterAll identifier modules).definer.values, ∃ m ∈ modules, m.identifier = id := by
  have h : Recorded (modules.map IrModule.identifier) (afterAll identifier modules) := by
    refine (Recorded.empty identifier _).foldl fun m hm => ⟨?_, mem_map_of_mem hm⟩
    obtain ⟨text, name, hread⟩ := hp m hm
    exact allSteady_of_parse hread (hk m hm)
  refine ⟨h.wellNamed.disjoint, fun e he => (h.wellNamed.function e he).1, h.wellNamed.global,
    fun x => ?_, ?_⟩
  · rw [Table.mem_keys, h.defined]
    constructor
    · rintro ⟨s, hs, hd⟩
      exact ⟨s, mem_symbolsInOrder_of_symbol? hs, h.wellNamed.name_eq hs, hd⟩
    · rintro ⟨s, hs, rfl, hd⟩
      exact ⟨s, (mem_symbolsInOrder h.wellNamed).1 hs, hd⟩
  · intro id hid
    obtain ⟨e, he, rfl⟩ := mem_map.1 hid
    exact mem_map.1 (h.origin (Table.get?_eq_some.2 he))

/-- The modules with given identifiers and texts, as far as they can be read. -/
def readAll (texts : List (String × String)) : List IrModule :=
  texts.filterMap fun p => (IrModule.parse p.2 p.1).toOption

theorem parse_of_mem_readAll {texts : List (String × String)} (h : m ∈ readAll texts) :
    ∃ text name, IrModule.parse text name = .ok m := by
  obtain ⟨p, -, hp⟩ := mem_filterMap.1 h
  cases hr : parse p.2 p.1 with
  | error e => rw [hr] at hp; cases hp
  | ok m' =>
    rw [hr] at hp
    exact ⟨p.2, p.1, Option.some.inj hp ▸ hr⟩

/-- Three modules: the second cannot be joined because of `f`, but its array was joined before, and
a name of the third makes the local symbol of the first give up its own. -/
def sampleFailing : List IrModule := readAll
  [("a", "@s = internal global i32 1\n@v = appending global [1 x i32] [i32 1]\n" ++
      "define ptr @f() \x7b\n  ret ptr @s\n\x7d\n"),
   ("b", "@v = appending global [1 x i32] [i32 2]\ndefine ptr @f() \x7b\n  ret ptr null\n\x7d\n"),
   ("c", "@s = global i32 3\n@t = external global i32\n")]

set_option maxRecDepth 100000 in
theorem sampleFailing_recorded : sampleFailing.map IrModule.identifier = ["a", "b", "c"] ∧
    (mergeAll "" sampleFailing).isOk = false ∧
    ((afterAll "" sampleFailing).dest.globals.get? "v").map Global.segment =
      some "appending global [2 x i32] [i32 1, i32 2]" ∧
    (afterAll "" sampleFailing).definer.entries = [("v", "a"), ("f", "a"), ("s.1", "a"),
      ("s", "c")] ∧
    ∀ id ∈ (afterAll "" sampleFailing).definer.values, ∃ m ∈ sampleFailing, m.identifier = id := by
  have hk : ∀ m ∈ sampleFailing, KindSteady m := by decide +kernel
  have hrecorded := definitions_recorded "" (fun _ hm => parse_of_mem_readAll hm) hk
  rw [← and_assoc, ← and_assoc, ← and_assoc]
  exact ⟨by decide +kernel, hrecorded.2.2.2.2⟩

/-- Modules after which an alias is taken for the declaration of a variable: in the first two a
reference stands before the kind word of `x`, in the last two an array type. -/
def turnedAliases : List (List IrModule) :=
  [readAll
    [("a",
    "@\"s global t\" = internal global i32 0\n@x = external @\"s\\20global\\20t\" alias i32\n"),
    ("b", "@\"s global t\" = global i32 1\n")],
   readAll [("a", "@x = appending external [1 x i32] alias [i32 1]\n"),
    ("b", "@x = appending external [1 x i32] alias [i32 2]\n")]]

set_option maxRecDepth 100000 in
/-- The name stays on record: a reference is written with the blanks of its new name, and of an
array everything is left out between its type and its elements. -/
theorem turnedAliases_recorded : turnedAliases.map (fun modules =>
      (modules.length, (afterAll "" modules).definer.get? "x",
        ((afterAll "" modules).dest.symbol? "x").map Symbol.isDeclaration)) =
    [(2, some "a", some true), (2, some "a", some true)] := by
  decide +kernel

end CallAtlas.Link
