import CallAtlas.Proofs.Debug.Resolving
import CallAtlas.Proofs.Link.Faithful

/-!
# Source locations after a run

A join moves the nodes of the incoming module past those that are present and renames in both;
`get?_metadata_merge` says where the nodes stand after it and what their texts are, and
`get?_functions_merge` where the functions come from. Along a run every module's nodes stay
together, moved by the offset of its passage (`Traced`), so what a location resolves to in its
module it resolves to in the destination: `locations_kept`. This needs modules that are `Traceable`.
-/

namespace CallAtlas.Link

open Ir IrModule Debug List Table

variable {f f' : Function} {m : IrModule} {origin x y : String}

/-- A module whose locations can be followed through joins. Functions and nodes stand under their
own names and numbers, nodes and instructions refer to nodes of the module only, no chain of inlined
locations leads back to itself, and no name of a symbol or a type holds a debug attachment. -/
structure Traceable (m : IrModule) : Prop where
  named : ∀ e ∈ m.functions.entries, e.2.name = e.1
  numbered : ∀ e ∈ m.metadata.entries, e.2.id = e.1
  nodes : ∀ e ∈ m.metadata.entries, e.2.Orderly (· ∈ m.metadata.keys)
  instructions : ∀ f ∈ m.functions.values, ∀ i ∈ f.instructions,
    Steady (· ∈ m.metadata.keys) i.text.toList
  acyclic : Acyclic m.metadata
  symbols : ∀ x ∈ m.symbolNames, debugRef? x.toList = none
  types : ∀ x ∈ m.types.keys, debugRef? x.toList = none

def Passage.function (p : Passage) (f : Function) : Function :=
  { f.mapText p.text with name := p.name f.name }

def Passage.instruction (p : Passage) (i : Instruction) : Instruction := ⟨p.text i.text⟩

theorem Passage.function_andThen (p q : Passage) (f : Function) :
    (p.andThen q).function f = q.function (p.function f) := by
  simp [function, andThen, Function.mapText]

theorem Passage.instructions_function (p : Passage) (f : Function) :
    (p.function f).instructions = f.instructions.map p.instruction := by
  have hi : p.instruction = fun i => ⟨p.text i.text⟩ := rfl
  simp [hi, function, Function.instructions, Function.mapText, flatMap_map, map_flatMap]

variable {g g' : Merger} {src : IrModule} {js : List Joined}

/-! ## The passages of a join -/

theorem debugRef?_numbered (h : debugRef? x.toList = none) (n : Nat) :
    debugRef? (numbered x n).toList = none := by
  have hs : (numbered x n).toList = x.toList ++ '.' :: (Text.natDigits (n + 1) ++ []) := by
    simp [numbered]
  have hd : ∀ c ∈ Text.natDigits (n + 1), c ≠ '!' :=
    fun c hc => isBare_ne_bang (isBare_of_isDecimal (isDecimal_of_mem_natDigits hc))
  rw [hs, debugRef?_foreign (by decide), h, debugRef?_append hd]
  rfl

theorem localNames_calm (side : Side) (hs : ∀ x ∈ src.symbolNames, debugRef? x.toList = none)
    (h : ((g.localNames src).side side).get? x = some y) :
    Writable y.toList ∧ debugRef? y.toList = none := by
  obtain ⟨hx, n, rfl⟩ := localNames_numbered side h
  exact ⟨writable_suffixed (suffixed_numbered x n), debugRef?_numbered (hs x hx) n⟩

theorem typeNames_calm (hs : ∀ x ∈ src.types.keys, debugRef? x.toList = none)
    (h : (g.typeNames src).get? x = some y) : Writable y.toList ∧ debugRef? y.toList = none := by
  obtain ⟨hx, n, rfl⟩ := typeNames_numbered h
  exact ⟨writable_suffixed (suffixed_numbered x n), debugRef?_numbered (hs x hx) n⟩

theorem relocates_yielding (g : Merger) (hs : Traceable src) : Relocates 0 (g.yielding src).text :=
  relocates_renameGlobals fun h => localNames_calm .dest hs.symbols h

theorem relocates_arrival (g : Merger) (hs : Traceable src) :
    Relocates g.dest.nextMetadata (g.arrival src).text := by
  have hshift := relocates_shiftNumbered g.dest.nextMetadata g.dest.nextAttributeGroup
  have htypes : Relocates 0 (renameTypes (g.typeNames src).get?) :=
    relocates_renameTypes (typeNames_calm hs.types)
  have hlocal : Relocates 0 (renameGlobals (g.localNames src).source.get?) :=
    relocates_renameGlobals fun h => localNames_calm .source hs.symbols h
  exact (hshift.comp htypes).comp hlocal

/-! ## Nodes after a join -/

theorem lt_nextNumber {α : Type} {t : Table Nat α} {i : Nat} (h : i ∈ t.keys) :
    i < nextNumber t := by
  have hle : ∀ (ks : List Nat) (n : Nat), n ≤ ks.foldl (fun n k => max n (k + 1)) n ∧
      ∀ k ∈ ks, k < ks.foldl (fun n k => max n (k + 1)) n := by
    intro ks
    induction ks with
    | nil => exact fun n => ⟨le_refl n, by simp⟩
    | cons k ks ih =>
      intro n
      obtain ⟨h1, h2⟩ := ih (max n (k + 1))
      refine ⟨le_trans (le_max_left _ _) h1, forall_mem_cons.2 ⟨?_, h2⟩⟩
      exact lt_of_lt_of_le (Nat.lt_succ_self k) (le_trans (le_max_right _ _) h1)
  exact (hle t.keys 0).2 i h

/-- Entries whose keys are moved past those of a table are added to it, and none is overwritten. -/
theorem get?_insertMany_moved {ν μ : Type} {t : Table Nat ν} {u : Table Nat μ} (f : Nat → μ → ν)
    {n i' : Nat} {v : ν}
    (hn : nextNumber t ≤ n) :
      (t.insertMany (u.entries.map fun e => (e.1 + n, f e.1 e.2))).get? i' = some v ↔
      t.get? i' = some v ∨ ∃ i w, u.get? i = some w ∧ i' = i + n ∧ v = f i w := by
  have hnew : ∀ {i' v}, (ofList (u.entries.map fun e => (e.1 + n, f e.1 e.2))).get? i' = some v ↔
      ∃ i w, u.get? i = some w ∧ i + n = i' ∧ f i w = v :=
    get?_ofList_rekey fun _ _ _ _ => add_right_cancel
  rw [get?_insertMany, ← get?_ofList, Option.or_eq_some_iff, hnew]
  constructor
  · rintro (⟨i, w, hw, rfl, rfl⟩ | ⟨-, hv⟩)
    · exact .inr ⟨i, w, hw, rfl, rfl⟩
    · exact .inl hv
  · rintro (hv | ⟨i, w, hw, rfl, rfl⟩)
    · refine .inr ⟨Option.eq_none_iff_forall_not_mem.2 fun v' hv' => ?_, hv⟩
      obtain ⟨i, -, -, rfl, -⟩ := hnew.1 hv'
      have := lt_nextNumber (mem_keys_of_get? hv)
      omega
    · exact .inl ⟨i, w, hw, rfl, rfl⟩

theorem get?_metadata_merge (h : g.merge src = .ok g') {i' : Nat} {n' : MetadataNode} :
    g'.dest.metadata.get? i' = some n' ↔
      (∃ n, g.dest.metadata.get? i' = some n ∧
        n' = { n with text := (g.yielding src).text n.text }) ∨
      ∃ i n, src.metadata.get? i = some n ∧ i' = i + g.dest.nextMetadata ∧
        n' = ⟨i + g.dest.nextMetadata, (g.arrival src).text n.text⟩ := by
  rw [(merge_rest h).nodes]
  have hn : nextNumber (rewriteNodes (g.yielding src).text g.dest.metadata) =
      g.dest.nextMetadata := by
    rw [rewriteNodes, nextNumber, keys_map]
    rfl
  refine (get?_insertMany_moved (fun i (n : MetadataNode) =>
    (⟨i + g.dest.nextMetadata, (g.arrival src).text n.text⟩ : MetadataNode)) hn.le).trans ?_
  simp only [rewriteNodes, get?_map, Option.map_eq_some_iff, eq_comm (a := n')]

/-! ## Functions after a join -/

/-- Functions stand under their own names. -/
def FunctionsNamed (m : IrModule) : Prop := ∀ {x f}, m.functions.get? x = some f → f.name = x

theorem get?_functions_merge (hd : FunctionsNamed g.dest) (hs : FunctionsNamed src)
    (h : g.merge src = .ok g')
    {y : String} {f' : Function} (hf : g'.dest.functions.get? y = some f') :
    f'.name = y ∧ ((∃ x f, g.dest.functions.get? x = some f ∧ f' = (g.yielding src).function f) ∨
      ∃ x f, src.functions.get? x = some f ∧ f' = (g.arrival src).function f) := by
  refine forall_holds_merge (P := fun y s => ∀ f', s = .function f' → f'.name = y ∧
    ((∃ x f, g.dest.functions.get? x = some f ∧ f' = (g.yielding src).function f) ∨
      ∃ x f, src.functions.get? x = some f ∧
      f' = (g.arrival src).function f)) ?_ ?_ nofun h y (.function f') hf f' rfl
  · rintro x (f | a) y z hx hy hz f' he
    · obtain rfl := Symbol.function.inj he
      obtain rfl := hz (hd hx)
      refine ⟨rfl, .inl ⟨x, f, hx, ?_⟩⟩
      rw [Passage.function, hd hx, hy]
    · cases he
  · rintro x (f | a) z hx hz f' he
    · obtain rfl := Symbol.function.inj he
      refine ⟨rfl, .inr ⟨x, f, hx, ?_⟩⟩
      rw [Passage.function, hs hx, hz (hs hx)]
    · cases he

/-! ## Runs -/

theorem Traceable.functionsNamed (h : Traceable m) : FunctionsNamed m :=
  fun hf => h.named _ (get?_eq_some.1 hf)

/-- What a run makes of functions: they are those of the modules after their passages. -/
structure FunctionsTraced (js : List Joined) (g : Merger) : Prop where
  named : FunctionsNamed g.dest
  function : ∀ {y f'}, g.dest.functions.get? y = some f' →
    ∃ j ∈ js, ∃ x f, j.source.functions.get? x = some f ∧ f' = j.passage.function f

theorem FunctionsTraced.snoc (h : FunctionsTraced js g) (hs : FunctionsNamed src)
    (hm : g.merge src = .ok g') :
    FunctionsTraced (g.advance src js) g' := by
  have hfun := @get?_functions_merge g g' src h.named hs hm
  refine ⟨fun hf => (hfun hf).1, fun hf => ?_⟩
  rcases (hfun hf).2 with ⟨y, f1, hy, rfl⟩ | ⟨x, f, hx, rfl⟩
  · obtain ⟨j, hj, x, f, hx, rfl⟩ := h.function hy
    exact ⟨_, andThen_mem_advance hj, x, f, hx, (Passage.function_andThen _ _ f).symm⟩
  · exact ⟨_, arrival_mem_advance, x, f, hx, rfl⟩

/-- What a run makes of functions and nodes: they are those of the modules after their passages, and
the nodes of a module are moved by the offset of its passage. -/
structure Traced (js : List Joined) (g : Merger) : Prop extends FunctionsTraced js g where
  relocates : ∀ j ∈ js, Relocates j.passage.offset j.passage.text
  node : ∀ j ∈ js, ∀ {i n}, j.source.metadata.get? i = some n →
    g.dest.metadata.get? (i + j.passage.offset) = some ⟨i + j.passage.offset, j.passage.text n.text⟩
  origin : ∀ {i'}, i' ∈ g.dest.metadata.keys → ∃ j ∈ js, ∃ i ∈ j.source.metadata.keys,
    i' = i + j.passage.offset

theorem Traced.snoc (h : Traced js g) (hs : Traceable src) (hm : g.merge src = .ok g') :
    Traced (g.advance src js) g' := by
  refine ⟨h.toFunctionsTraced.snoc hs.functionsNamed hm, fun j hj => ?_, fun j hj i n hn => ?_,
    fun {i'} hi => ?_⟩
  · rcases mem_advance hj with ⟨i, hi, rfl⟩ | rfl
    · exact (h.relocates i hi).comp (relocates_yielding g hs)
    · exact relocates_arrival g hs
  · rcases mem_advance hj with ⟨j, hj', rfl⟩ | rfl
    · exact (get?_metadata_merge hm).2 (.inl ⟨_, h.node j hj' hn, rfl⟩)
    · exact (get?_metadata_merge hm).2 (.inr ⟨i, n, hn, rfl, rfl⟩)
  · obtain ⟨n', hn'⟩ := exists_get? hi
    rcases (get?_metadata_merge hm).1 hn' with ⟨n, hn, -⟩ | ⟨i, n, hn, rfl, -⟩
    · obtain ⟨j, hj, i, hk, rfl⟩ := h.origin (mem_keys_of_get? hn)
      exact ⟨_, andThen_mem_advance hj, i, hk, rfl⟩
    · exact ⟨_, arrival_mem_advance, i, mem_keys_of_get? hn, rfl⟩

theorem trackAll_traced {identifier : String} {modules : List IrModule}
    (hl : ∀ m ∈ modules, Traceable m)
    (h : trackAll identifier modules = .ok (g, js)) : Traced js g := by
  exact trackAll_invariant (P := fun g js => Traced js g) ⟨⟨nofun, nofun⟩, nofun, nofun,
    nofun⟩ Traced.snoc hl h

/-! ## Locations -/

theorem Traced.carried (h : Traced js g) {j : Joined} (hj : j ∈ js) (hs : Traceable j.source) :
    Carried j.source.metadata g.dest.metadata j.passage.offset where
  id hn := hs.numbered _ (get?_eq_some.1 hn)
  node hn :=
    ⟨_, h.node j hj hn, rfl, ((h.relocates j hj).node (hs.nodes _ (get?_eq_some.1 hn)) rfl).1⟩
  closed hn hk hr := (hs.nodes _ (get?_eq_some.1 hn)).ref hk hr

theorem Traced.resolves (h : Traced js g) (hs : ∀ j ∈ js, Traceable j.source) (id : Nat) :
    ∃ height r, Resolves g.dest.metadata height id r := by
  by_cases hid : id ∈ g.dest.metadata.keys
  · obtain ⟨j, hj, i, hi, rfl⟩ := h.origin hid
    obtain ⟨height, r, hr⟩ := (hs j hj).acyclic.resolves i
    exact ⟨height, r, (h.carried hj (hs j hj)).resolves hr hi⟩
  · exact ⟨_, _, .absent (get?_eq_none.2 hid)⟩

/-- The locations of two instructions are the same. A fresh resolution gives the same on either
side, and after other resolutions two that do not fail do. -/
def SameLocation (m m' : IrModule) (i i' : Instruction) : Prop :=
  (∀ depth, locate m'.metadata depth .empty i'.debug = locate m.metadata depth .empty i.debug) ∧
    ∀ memo memo', Remembered m.metadata memo → Remembered m'.metadata memo' → ∀ depth depth' v v',
      locate m.metadata depth memo i.debug = .ok v →
      locate m'.metadata depth' memo' i'.debug = .ok v' → v' = v

theorem Traced.sameLocation (h : Traced js g) (hs : ∀ j ∈ js, Traceable j.source) {j : Joined}
    (hj : j ∈ js) {i : Instruction} (hi : Steady (· ∈ j.source.metadata.keys) i.text.toList) :
    SameLocation j.source g.dest i (j.passage.instruction i) := by
  have hd : (j.passage.instruction i).debug = i.debug.map (· + j.passage.offset) :=
    (h.relocates j hj).debug hi
  rw [SameLocation, hd]
  cases hid : i.debug with
  | none => exact ⟨fun _ => rfl, fun _ _ _ _ _ _ v v' hv hv' => Except.ok.inj (hv'.symm.trans hv)⟩
  | some id =>
    have htotal := (hs j hj).acyclic.resolves
    obtain ⟨height, r, hr⟩ := htotal id
    have hr' := (h.carried hj (hs j hj)).resolves hr (hi.debugRef? hid)
    refine ⟨fun depth => (hr'.resolve_fresh depth).trans (hr.resolve_fresh depth).symm, ?_⟩
    intro memo memo' hm hm' depth depth' v v' hv hv'
    have he := (hm.resolve_ok htotal hr hv).symm.trans (hm'.resolve_ok (h.resolves hs) hr' hv')
    exact (Except.ok.inj he).symm

/-- **Locations.** Joining keeps source locations: every function of the destination is one of a
module after its passage, and the debug attachments of its instructions resolve in the destination
to what they resolved to in the module. -/
theorem locations_kept {identifier : String} {modules : List IrModule}
    (hl : ∀ m ∈ modules, Traceable m) (h : mergeAll identifier modules = .ok g) :
    ∃ js, trackAll identifier modules = .ok (g, js) ∧ js.map Joined.source = modules ∧
      (∀ y f', g.dest.functions.get? y = some f' →
        ∃ j ∈ js, ∃ x f, j.source.functions.get? x = some f ∧
        j.passage.name x = y ∧ j.passage.function f = f') ∧
      ∀ j ∈ js, ∀ x f, j.source.functions.get? x = some f →
        List.Forall₂ (SameLocation j.source g.dest) f.instructions
          (j.passage.function f).instructions := by
  obtain ⟨js, ht⟩ := exists_trackAll h
  have hsrc := sources_trackAll ht
  have htr := trackAll_traced hl ht
  have hs : ∀ j ∈ js, Traceable j.source := fun j hj => hl _ (hsrc ▸ mem_map_of_mem hj)
  refine ⟨js, ht, hsrc, ?_, ?_⟩
  · intro y f' hf
    obtain ⟨j, hj, x, f, hx, rfl⟩ := htr.function hf
    refine ⟨j, hj, x, f, hx, ?_, rfl⟩
    rw [← (hs j hj).functionsNamed hx]
    exact htr.named hf
  · intro j hj x f hx
    rw [Passage.instructions_function, forall₂_map_right_iff, forall₂_same]
    exact fun i hi => htr.sameLocation hs hj
      ((hs j hj).instructions f (mem_values.2 ⟨_, hx⟩) i hi)

/-- Two modules with a local function of one name. The second calls it at a location that was
inlined. -/
def sampleLocations : List IrModule :=
  [{ functions := .ofList
       [("f", ⟨"f", "define internal void @f()", [⟨"", [⟨"  ret void, !dbg !2"⟩], none⟩]⟩)]
     metadata := .ofList [
       (0, ⟨0, "!DIFile(filename: \"a.c\", directory: \"/d\")"⟩),
       (1, ⟨1, "distinct !DISubprogram(name: \"f\", file: !0)"⟩),
       (2, ⟨2, "!DILocation(line: 1, column: 2, scope: !1)"⟩)] },
   { functions := .ofList
       [("f", ⟨"f", "define internal void @f()", [⟨"", [⟨"  ret void"⟩], none⟩]⟩),
        ("g", ⟨"g", "define void @g()",
          [⟨"", [⟨"  call void @f(), !dbg !3"⟩, ⟨"  ret void"⟩], none⟩]⟩)]
     metadata := .ofList [
       (0, ⟨0, "!DIFile(filename: \"b.c\", directory: \"/d\")"⟩),
       (1, ⟨1, "distinct !DISubprogram(name: \"g\", file: !0)"⟩),
       (2, ⟨2, "!DILocation(line: 7, column: 3, scope: !1)"⟩),
       (3, ⟨3, "!DILocation(line: 9, column: 1, scope: !1, inlinedAt: !2)"⟩)] }]

set_option maxRecDepth 100000 in
theorem sampleLocations_kept : (∀ m ∈ sampleLocations, Traceable m) ∧
    ∃ g js, mergeAll "out" sampleLocations = .ok g ∧ trackAll "out" sampleLocations = .ok (g, js) ∧
      js.map Joined.source = sampleLocations ∧
      ∀ j ∈ js, ∀ f, j.source.functions.get? "g" = some f →
        List.Forall₂ (SameLocation j.source g.dest) f.instructions
          (j.passage.function f).instructions := by
  -- one evaluation, which reads the texts of the sample once
  have hread : (∀ m ∈ sampleLocations, Descends m.metadata ∧
      (∀ e ∈ m.functions.entries, e.2.name = e.1) ∧ (∀ e ∈ m.metadata.entries, e.2.id = e.1) ∧
      (∀ e ∈ m.metadata.entries, e.2.Orderly (· ∈ m.metadata.keys)) ∧
      (∀ f ∈ m.functions.values, ∀ i ∈ f.instructions,
        Steady (· ∈ m.metadata.keys) i.text.toList) ∧
      (∀ x ∈ m.symbolNames, debugRef? x.toList = none) ∧
      ∀ x ∈ m.types.keys, debugRef? x.toList = none) ∧
      (mergeAll "out" sampleLocations).isOk = true := by decide +kernel
  obtain ⟨hread, hok⟩ := hread
  have hl : ∀ m ∈ sampleLocations, Traceable m := by
    intro m hm
    obtain ⟨hchain, hnamed, hnumbered, hnodes, hinstructions, hsymbols, htypes⟩ := hread m hm
    exact ⟨hnamed, hnumbered, hnodes, hinstructions, hchain.acyclic, hsymbols, htypes⟩
  obtain ⟨g, hg⟩ := exists_eq_ok hok
  obtain ⟨js, ht, hsrc, -, hs⟩ := locations_kept hl hg
  exact ⟨hl, g, js, hg, ht, hsrc, fun j hj f hf => hs j hj "g" f hf⟩

/-! ## Locations that go astray -/

/-- Reads a number in ASCII digits behind an exclamation mark, and whether a word goes on behind
it. -/
def plainNumber? : List Char → Option ((Nat × Bool) × List Char × List Char)
  | '!' :: s => (run? Text.isAsciiDigit s).map fun p =>
    ((Text.digitsValue p.1, continuesWord p.2), '!' :: p.1, p.2)
  | _ => none

theorem plainNumber?_split {s text rest : List Char} {a : Nat × Bool}
    (h : plainNumber? s = some (a, text, rest)) :
    s = text ++ rest ∧ text ≠ [] := by
  unfold plainNumber? at h
  split at h
  · obtain ⟨p, hp, he⟩ := Option.map_eq_some_iff.1 h
    cases he
    exact ⟨by rw [(run?_split hp).1]; rfl, by simp⟩
  · cases h

/-- Numbers in ASCII digits behind exclamation marks. -/
def plainNumberReader : Reader (Nat × Bool) := ⟨plainNumber?, plainNumber?_split⟩

/-- Whether the quotes of a text are closed, every number in ASCII digits behind an exclamation mark
is a whole word and that of a node, and no literal holds the beginning of an attachment. -/
def plainlyClosed (m : IrModule) (s : List Char) : Bool :=
  terminated false s &&
    (references plainNumberReader s).all (fun a => !a.2 && m.metadata.keys.contains a.1) &&
    (lexemes plainNumberReader s).all fun
      | .literal t => !Text.hasPart "!dbg !".toList t
      | _ => true

/-- The source file that an instruction is located in. -/
def sourceFile? (m : IrModule) (i : Instruction) : Option String :=
  (locate m.metadata 500 .empty i.debug).toOption.join.map Location.sourceFile

/-- Whether an instruction of a function that the destination holds is located in another file than
it was. -/
def strays (g : Merger) (js : List Joined) : Bool :=
  js.any fun j => j.source.functions.values.any fun f =>
    g.dest.functions.get? (j.passage.name f.name) = some (j.passage.function f) &&
      f.instructions.any fun i =>
        sourceFile? g.dest (j.passage.instruction i) ≠ sourceFile? j.source i

def AllClosed (m : IrModule) : Prop :=
  (∀ n ∈ m.metadata.values, plainlyClosed m n.text.toList) ∧
    ∀ f ∈ m.functions.values, ∀ t ∈ f.header :: f.instructions.map Instruction.text,
    plainlyClosed m t.toList

instance (m : IrModule) : Decidable (AllClosed m) := inferInstanceAs (Decidable (_ ∧ _))

/-- Modules whose texts are closed and whose chains have no cycle, and that do not keep their
locations. -/
def GoAstray (ms : List IrModule) : Prop :=
  (∀ m ∈ ms, AllClosed m ∧ Acyclic m.metadata) ∧
    (trackAll "out" ms).toOption.map (fun r => strays r.1 r.2) = some true

theorem goAstray_of {ms : List IrModule}
    (h : (∀ m ∈ ms, AllClosed m ∧ Descends m.metadata) ∧
      (trackAll "out" ms).toOption.map (fun r => strays r.1 r.2) = some true) : GoAstray ms :=
  ⟨fun m hm => (h.1 m hm).imp_right Descends.acyclic, h.2⟩

/-- A renamed symbol is written without escapes, and its name reads as an attachment. -/
def escapedName : List IrModule :=
  let f : Function :=
    ⟨"!dbg !0", "define internal void @\"\\21dbg !0\"()", [⟨"", [⟨"  ret void"⟩], none⟩]⟩
  [{ functions := .ofList [(f.name, f)], metadata := .ofList [(0, ⟨0, "!\x7b\x7d"⟩)] },
   { functions := .ofList [(f.name, f),
       ("g", ⟨"g", "define void @g()", [⟨"", [⟨"  call void @\"\\21dbg !0\"(), !dbg !2"⟩], none⟩]⟩)]
     metadata := .ofList [
       (0, ⟨0, "!DIFile(filename: \"b.c\", directory: \"/d\")"⟩),
       (1, ⟨1, "distinct !DISubprogram(name: \"g\", file: !0)"⟩),
       (2, ⟨2, "!DILocation(line: 7, column: 3, scope: !1)"⟩)] }]

/-- A record without a closing parenthesis loses its last character, which is a digit more after the
move. -/
def openRecord : List IrModule :=
  [{ metadata := .ofList [
       (0, ⟨0, "!DIFile(filename: \"a.c\", directory: \"/d\")"⟩),
       (1, ⟨1, "distinct !DISubprogram(name: \"f\", file: !0)"⟩),
       (9, ⟨9, "!\x7b\x7d"⟩)] },
   { functions := .ofList
       [("g", ⟨"g", "define void @g()", [⟨"", [⟨"  call void @g(), !dbg !0"⟩], none⟩]⟩)]
     metadata := .ofList [(0, ⟨0, "!DILocation(line: 7, scope: !2"⟩), (2, ⟨2, "!\x7b\x7d"⟩)] }]

/-- The name of a file goes on behind its literal with a symbol that is renamed. -/
def trailedName : List IrModule :=
  let f : Function := ⟨"f", "define internal void @f()", [⟨"", [⟨"  ret void"⟩], none⟩]⟩
  [{ functions := .ofList [("f", f)] },
   { functions := .ofList [("f", f),
       ("g", ⟨"g", "define void @g()", [⟨"", [⟨"  call void @f(), !dbg !2"⟩], none⟩]⟩)]
     metadata := .ofList [
       (0, ⟨0, "!DIFile(filename: \"b.c\" @f, directory: \"/d\")"⟩),
       (1, ⟨1, "distinct !DISubprogram(name: \"g\", file: !0)"⟩),
       (2, ⟨2, "!DILocation(line: 7, column: 3, scope: !1)"⟩)] }]

/-- An attachment in the digits of another script that finds its node in the module that comes
next. -/
def otherDigits : List IrModule :=
  [{ functions := .ofList
       [("f", ⟨"f", "define void @f()", [⟨"", [⟨"  call void @f(), !dbg !٢"⟩], none⟩]⟩)] },
   { metadata := .ofList [
       (0, ⟨0, "!DIFile(filename: \"b.c\", directory: \"/d\")"⟩),
       (1, ⟨1, "distinct !DISubprogram(name: \"g\", file: !0)"⟩),
       (2, ⟨2, "!DILocation(line: 7, column: 3, scope: !1)"⟩)] }]

set_option maxRecDepth 100000 in
/-- Closed quotes and numbers, literals without attachments and chains without cycles do not keep
locations. -/
theorem locations_stray :
    GoAstray escapedName ∧ GoAstray openRecord ∧ GoAstray trailedName ∧ GoAstray otherDigits := by
  refine ⟨goAstray_of ?_, goAstray_of ?_, goAstray_of ?_, goAstray_of ?_⟩ <;> decide +kernel

end CallAtlas.Link
