import CallAtlas.Proofs.Ir.Bodies
import CallAtlas.Proofs.Table

/-!
# Printing and reading modules

Every module that is read from a text is made of entities, functions and other lines that can stand
on lines of their own: `fromLines_of_parse`, kept by each line and so by the run. The lines of such
a module are read back section by section, `parse_sorted`. So printing and reading again gives the
module, with its numbered entities in the order of their numbers, and printing that gives the same
text: `parse_print`.
-/

namespace CallAtlas.Ir

open Text List
open IrModule (byNumber parse)

variable {l : List Char} {m : IrModule} {identifier : String} {α : Type}

/-! ## What lines write -/

/-- A line at module level that writes neither an entity nor a function. -/
structure Extra (l : List Char) : Prop where
  breakless : Breakless l
  filled : trim l ≠ []
  code : startsWith [';'] l = false
  undefined : startsWith "define ".toList l = false
  undeclared : startsWith "declare ".toList l = false
  other : entity? l = none

/-- A module all whose parts are written by lines. -/
structure FromLines (m : IrModule) : Prop where
  identifier : Breakless m.identifier.toList
  source : (Entity.source m.sourceFilename).Sound
  layout : (Entity.layout m.dataLayout).Sound
  triple : (Entity.triple m.targetTriple).Sound
  extra : ∀ l ∈ m.extraLines, Extra l.toList
  types : ∀ e ∈ m.types.entries, (Entity.type e.1 e.2).Sound
  comdats : ∀ e ∈ m.comdats.entries, (Entity.comdat e.1 e.2).Sound
  globals : ∀ e ∈ m.globals.entries, e.2.name = e.1 ∧ (Entity.global e.2).Sound
  functions : ∀ e ∈ m.functions.entries, e.2.name = e.1 ∧ Drawn e.2
  attributes : ∀ e ∈ m.attributeGroups.entries, (Entity.attributes e.1 e.2).Sound
  metadata : ∀ e ∈ m.metadata.entries, e.2.id = e.1 ∧ (Entity.metadata e.1 e.2.text).Sound
  named : ∀ e ∈ m.namedMetadata.entries, (Entity.named e.1 e.2).Sound

theorem fromLines_empty (h : Breakless identifier.toList) : FromLines { identifier } where
  identifier := h
  source := breakless_nil
  layout := breakless_nil
  triple := breakless_nil
  extra := by simp
  types := by simp [Table.empty]
  comdats := by simp [Table.empty]
  globals := by simp [Table.empty]
  functions := by simp [Table.empty]
  attributes := by simp [Table.empty]
  metadata := by simp [Table.empty]
  named := by simp [Table.empty]

namespace FromLines

theorem add (hm : FromLines m) {e : Entity} (he : e.Sound) : FromLines (e.add m) := by
  cases e with
  | global g => exact { hm with globals := Table.forall_mem_insert hm.globals ⟨rfl, he⟩ }
  | type name body => exact { hm with types := Table.forall_mem_insert hm.types he }
  | comdat name kind => exact { hm with comdats := Table.forall_mem_insert hm.comdats he }
  | attributes n body => exact { hm with attributes := Table.forall_mem_insert hm.attributes he }
  | metadata n text => exact { hm with metadata := Table.forall_mem_insert hm.metadata ⟨rfl, he⟩ }
  | named name ids => exact { hm with named := Table.forall_mem_insert hm.named he }
  | source v => exact { hm with source := he }
  | layout v => exact { hm with layout := he }
  | triple v => exact { hm with triple := he }

theorem putFunction (hm : FromLines m) {f : Function} (hf : Drawn f) :
    FromLines { m with functions := m.functions.insert f.name f } :=
  { hm with functions := Table.forall_mem_insert hm.functions ⟨rfl, hf⟩ }

theorem putExtra (hm : FromLines m) (hl : Extra l) :
    FromLines { m with extraLines := m.extraLines ++ [String.ofList l] } :=
  { hm with extra := forall_mem_append.2 ⟨hm.extra,
    forall_mem_singleton.2 (by rwa [String.toList_ofList])⟩ }

end FromLines

theorem breakless_moduleId (hl : Breakless l) (h : moduleId? l = some identifier) :
    Breakless identifier.toList := by
  simp only [moduleId?, bind, Option.bind_eq_some_iff] at h
  obtain ⟨r, hr, h⟩ := h
  split at h
  · next c t ht =>
    obtain rfl := Option.some.inj h
    rw [String.toList_ofList]
    have hsub : t.Sublist r.reverse := (sublist_cons_self c t).trans (ht ▸ dropWhile_sublist _)
    have hsub := hsub.reverse
    rw [reverse_reverse] at hsub
    exact hl.sublist (hsub.trans (suffix_of_dropHead? hr).sublist)
  · cases h

/-- What is read so far is written by lines, an open body included. -/
structure StateFromLines (s : ParseState) : Prop where
  module : FromLines s.module
  body : ∀ b, s.body = some b →
    Titled b.name b.header ∧ startsWith "define ".toList b.header.toList ∧ b.Filled

def ParseState.named (s : ParseState) (identifier : String) : ParseState :=
  { s with module.identifier := identifier }

theorem closeBody_named (s : ParseState) (identifier : String) :
    (s.named identifier).closeBody = s.closeBody.named identifier := by
  unfold ParseState.closeBody
  have hb : (s.named identifier).body = s.body := rfl
  rw [hb]
  cases s.body <;> rfl

namespace StateFromLines

variable {s s' : ParseState}

theorem closeBody (hs : StateFromLines s) : StateFromLines s.closeBody := by
  unfold ParseState.closeBody
  split
  · next b hb =>
    obtain ⟨ht, hw, hf⟩ := hs.body b hb
    exact ⟨hs.module.putFunction (.defined ht hw hf), fun _ h => by cases h⟩
  · exact hs

theorem opened (hs : StateFromLines (s.named "")) (hl : Breakless l) (hh : isHeader l)
    {name : String}
    (hn : functionName l = .ok name) : StateFromLines ((s.opened l name).named "") := by
  have ht := titled_trimRight hl hn
  have hword {word : List Char} (hat : '@' ∉ word) (hw : startsWith word l) :
      startsWith word (String.ofList (trimRight l)).toList := by
    rw [String.toList_ofList]
    exact startsWith_trimRight hat hw hn
  rcases Bool.or_eq_true _ _ ▸ hh with hw | hw
  · have hw := hword (by decide) hw
    refine ⟨hs.module.putFunction (.defined (b := .start name _) ht hw (OpenBody.filled_start _ _)),
      ?_⟩
    intro b hb
    obtain ⟨-, hb⟩ := Option.ite_none_right_eq_some.1 hb
    obtain rfl := Option.some.inj hb
    exact ⟨ht, hw, OpenBody.filled_start _ _⟩
  · refine ⟨hs.module.putFunction (.declared ht (hword (by decide) hw)), ?_⟩
    obtain ⟨t, rfl⟩ := isPrefixOf_iff_prefix.1 hw
    exact nofun

theorem plainLine (hm : FromLines { m with identifier := "" }) (hl : Breakless l)
    (hh : isHeader l = false) :
    FromLines { plainLine m l with identifier := "" } := by
  unfold Ir.plainLine
  split_ifs with ht hc
  · exact hm
  · exact hm
  · cases he : entity? l with
    | some e =>
      have h := hm.add (entity?_sound hl he)
      cases e <;> exact h
    | none =>
      obtain ⟨h1, h2⟩ := Bool.or_eq_false_iff.1 hh
      exact hm.putExtra ⟨hl, ht, eq_false_of_ne_true hc, h1, h2, he⟩

theorem line (hs : StateFromLines (s.named "")) (hl : Breakless l) (h : s.line l = .ok s') :
    StateFromLines (s'.named "") := by
  rcases ParseState.line_cases h with ⟨b, hb, rfl⟩ | ⟨-, ⟨hh, name, hn, rfl⟩ | ⟨hh, rfl⟩⟩
  · rw [bodyLine_eq]
    split_ifs with hc hk
    · rw [← closeBody_named]
      exact hs.closeBody
    · obtain ⟨ht, hw, hf⟩ := hs.body b hb
      obtain ⟨hn, hh⟩ := b.read_named l
      refine ⟨hs.module, ?_⟩
      rintro _ ⟨⟩
      exact ⟨by rwa [hn, hh], by rwa [hh], hf.read (kept_iff.2 ⟨eq_false_of_ne_true hc, hk⟩) hl⟩
    · exact hs
  · exact hs.opened hl hh hn
  · exact ⟨plainLine hs.module hl hh, nofun⟩

end StateFromLines

theorem breakless_identifier {s s' : ParseState} (hs : Breakless s.module.identifier.toList)
    (hl : Breakless l) (h : s.line l = .ok s') : Breakless s'.module.identifier.toList := by
  rcases ParseState.line_cases h with ⟨b, hb, rfl⟩ | ⟨-, ⟨-, name, -, rfl⟩ | ⟨-, rfl⟩⟩
  · rw [bodyLine_eq, ParseState.closeBody, hb]
    split_ifs <;> exact hs
  · exact hs
  · unfold plainLine
    split_ifs
    · exact hs
    · unfold identified
      cases hid : moduleId? l with
      | none => exact hs
      | some id =>
        dsimp only
        split_ifs
        · exact breakless_moduleId hl hid
        · exact hs
    · cases entity? l with
      | none => exact hs
      | some e => cases e <;> exact hs

theorem parse_eq (text identifier : String) : parse text identifier =
    ((lines text.toList).foldlM ParseState.line ⟨{ identifier }, none⟩).map
      (·.closeBody.module) := by
  show (lines text.toList).foldlM ParseState.line ⟨{ identifier },
      none⟩ >>= (fun s => pure s.closeBody.module) = _
  cases (lines text.toList).foldlM ParseState.line ⟨{ identifier }, none⟩ <;> rfl

theorem fromLines_of_parse {text : String} (h : parse text identifier = .ok m) :
    FromLines { m with identifier := "" } ∧
    (Breakless identifier.toList → Breakless m.identifier.toList) := by
  rw [parse_eq] at h
  obtain ⟨s, hs, rfl⟩ := map_eq_ok h
  have hstart : StateFromLines (ParseState.named ⟨{ identifier }, none⟩ "") :=
    ⟨fromLines_empty (by exact breakless_nil), nofun⟩
  have hf := foldlM_ok (P := fun s => StateFromLines (s.named ""))
    (fun l hl _ _ hs => hs.line (breakless_of_mem_lines hl)) hstart hs
  have hm := hf.closeBody.module
  rw [closeBody_named] at hm
  refine ⟨hm, fun hid => ?_⟩
  have hi := foldlM_ok (P := fun s : ParseState => Breakless s.module.identifier.toList)
    (fun l hl _ _ hs => breakless_identifier hs (breakless_of_mem_lines hl)) hid hs
  unfold ParseState.closeBody
  cases s.body <;> exact hi

theorem fromLines_parse {text identifier : String} (hid : Breakless identifier.toList)
    (h : parse text identifier = .ok m) : FromLines m :=
  { (fromLines_of_parse h).1 with identifier := (fromLines_of_parse h).2 hid }

/-! ## Reading printed lines -/

/-- Printed lines do to any module what `f` does. A printed line that holds line feeds is read as
several lines. -/
def Rereads (printed : List String) (f : IrModule → IrModule) : Prop :=
  ∃ ls, unlines ls = unlines (printed.map String.toList) ∧ (∀ l ∈ ls, Breakless l) ∧
    ∀ m, ls.foldlM ParseState.line ⟨m, none⟩ = .ok ⟨f m, none⟩

section rereads

variable {printed printed' : List String} {f g : IrModule → IrModule} {line : String}

theorem rereads_nil : Rereads [] id := ⟨[], rfl, fun _ h => absurd h not_mem_nil, fun _ => rfl⟩

theorem rereads_line (hl : Breakless line.toList)
    (h : ∀ m, ParseState.line ⟨m, none⟩ line.toList = .ok ⟨f m, none⟩) : Rereads [line] f := by
  refine ⟨[line.toList], rfl, by simpa using hl, fun m => ?_⟩
  rw [foldlM_cons, h]
  rfl

theorem Rereads.append (h : Rereads printed f) (h' : Rereads printed' g) :
    Rereads (printed ++ printed') (g ∘ f) := by
  obtain ⟨ls, hu, hb, hr⟩ := h
  obtain ⟨ls', hu', hb', hr'⟩ := h'
  refine ⟨ls ++ ls', ?_, ?_, fun m => ?_⟩
  · rw [unlines_append, hu, hu', map_append, unlines_append]
  · exact forall_mem_append.2 ⟨hb, hb'⟩
  · rw [foldlM_append, hr]
    exact hr' (f m)

theorem rereads_blank : Rereads [""] id := rereads_line breakless_nil fun _ => rfl

theorem Rereads.cons (h : Rereads [line] f) (h' : Rereads printed g) :
    Rereads (line :: printed) (g ∘ f) :=
  h.append h'

theorem Rereads.paragraph (h : Rereads printed f) : Rereads (IrModule.paragraph printed) f := by
  unfold IrModule.paragraph
  split_ifs with hp
  · rwa [isEmpty_iff.1 hp] at h
  · exact rereads_blank.cons h

/-- A field of modules that can be put anew. -/
structure Slot (β : Type) where
  get : IrModule → β
  put : IrModule → β → IrModule
  get_put : ∀ m b, get (put m b) = b
  put_put : ∀ m b b', put (put m b) b' = put m b'
  put_get : ∀ m, put m (get m) = m

/-- Lines that are written for the elements of a list, where each of them changes one field of the
module. -/
theorem rereads_field {α β : Type} {lines : α → List String} (slot : Slot β) (step : β → α → β)
    {xs : List α} (h : ∀ x ∈ xs, Rereads (lines x) fun m => slot.put m (step (slot.get m) x)) :
    Rereads (xs.flatMap lines) fun m => slot.put m (xs.foldl step (slot.get m)) := by
  induction xs with
  | nil =>
    have hid : (fun m => slot.put m (slot.get m)) = id := funext slot.put_get
    simpa only [flatMap_nil, foldl_nil, hid] using rereads_nil
  | cons x xs ih =>
    obtain ⟨hx, hxs⟩ := forall_mem_cons.1 h
    have happ := hx.append (ih hxs)
    have hcomp : ((fun m => slot.put m (xs.foldl step (slot.get m))) ∘ fun m =>
        slot.put m (step (slot.get m) x)) =
        fun m => slot.put m ((x :: xs).foldl step (slot.get m)) := by
      funext m
      simp only [Function.comp_apply, slot.get_put, slot.put_put, foldl_cons]
    rwa [hcomp] at happ

theorem exists_line_cons (e : Entity) :
    ∃ c r, e.line.toList = c :: r ∧ c ∈ ['@', '%', '$', 'a', '!', 's', 't'] := by
  rw [toList_line]
  cases e <;> exact ⟨_, _, rfl, by decide⟩

/-- What a line adds that starts as none of a comment or a function. -/
theorem topLine_entity {c : Char} (hc : isBlank c = false ∧ c ≠ ';' ∧ c ≠ 'd') (s : ParseState)
    (r : List Char) :
    s.topLine (c :: r) = .ok { s with module := match entity? (c :: r) with
      | some e => e.add s.module
      | none => { s.module with extraLines := s.module.extraLines ++
        [String.ofList (c :: r)] } } := by
  have hh : ¬isHeader (c :: r) := fun h => by
    obtain ⟨t, ht⟩ := isHeader_head h
    exact hc.2.2 (cons.inj ht).1
  have htrim : trim (c :: r) ≠ [] := fun h => by
    have hb := trim_eq_nil.1 h c mem_cons_self
    rw [hc.1] at hb
    cases hb
  have hcomment : ¬startsWith [';'] (c :: r) := by simp [startsWith, isPrefixOf, symm hc.2.1]
  have htop := ParseState.topLine_eq s (c :: r)
  rw [if_neg hh, plainLine, if_neg htrim, if_neg hcomment] at htop
  exact htop

theorem rereads_entity {e : Entity} (hs : e.Sound) (hn : e.Recovers) : Rereads [e.line] e.add := by
  refine rereads_line (breakless_line hs hn) fun m => ?_
  obtain ⟨c, r, hc, hmem⟩ := exists_line_cons e
  have hc' : isBlank c = false ∧ c ≠ ';' ∧ c ≠ 'd' := by
    simp only [mem_cons, not_mem_nil, or_false] at hmem
    rcases hmem with rfl | rfl | rfl | rfl | rfl | rfl | rfl <;>
      exact ⟨by decide, by decide, by decide⟩
  have hread := entity?_line hs hn
  rw [hc] at hread ⊢
  show ParseState.topLine ⟨m, none⟩ (c :: r) = _
  rw [topLine_entity hc', hread]

/-- Lines that are written for the entries of a table, where each of them adds its entry. -/
theorem rereads_entities {κ ν : Type} [DecidableEq κ] {e : κ × ν → Entity} (slot : Slot (Table κ ν))
    {es : List (κ × ν)} (hs : ∀ x ∈ es, (e x).Sound ∧ (e x).Recovers)
    (hadd : ∀ x ∈ es, ∀ m, (e x).add m = slot.put m ((slot.get m).insert x.1 x.2)) :
    Rereads (es.map fun x => (e x).line) fun m => slot.put m ((slot.get m).insertMany es) := by
  rw [map_eq_flatMap]
  refine rereads_field slot (fun t (e : κ × ν) => t.insert e.1 e.2) fun x hx => ?_
  rw [← funext (hadd x hx)]
  exact rereads_entity (hs x hx).1 (hs x hx).2

theorem rereads_extra (h : Extra line.toList) :
    Rereads [line] fun m => { m with extraLines := m.extraLines ++ [line] } := by
  refine rereads_line h.breakless fun m => ?_
  refine (ParseState.topLine_eq ⟨m, none⟩ line.toList).trans ?_
  rw [isHeader, h.undefined, h.undeclared, plainLine, if_neg h.filled, h.code, h.other,
    String.ofList_toList]
  rfl

theorem rereads_function {f : Function} (hf : Drawn f)
    (hbrace : f.isDeclaration = false → f.header.toList.getLast? = some '\x7b') :
    Rereads f.lines fun m => { m with functions := m.functions.insert f.name f } := by
  cases hf with
  | @declared name header ht hw =>
    have hd := isDeclaration_of_declare (f := ⟨name, header, []⟩) hw
    have hlines : Function.lines ⟨name, header, []⟩ = [header] := by
      rw [Function.lines, if_pos hd]
    rw [hlines]
    exact rereads_line ht.breakless fun m => line_header false ht hw m
  | @defined b ht hw hfill =>
    have hd := isDeclaration_of_define (f := b.function) hw
    have hlast : b.header.toList.getLast? = some '\x7b' := hbrace hd
    obtain ⟨ls, hls, hb⟩ := hfill
    have htext : unlines ((b.blocks.flatMap Block.lines).map String.toList) = unlines ls := by
      have h := OpenBody.text_readAll (b := .start b.name b.header) (fun h => by cases h) ls
      rw [← hb] at h
      exact h
    have hlines : b.function.lines = b.header :: b.blocks.flatMap Block.lines ++ ["\x7d"] := by
      rw [Function.lines, if_neg (by rw [hd]; exact Bool.false_ne_true)]
      rfl
    refine ⟨b.header.toList :: ls ++ [['\x7d']], ?_, ?_, fun m => ?_⟩
    · rw [hlines]
      simp [htext]
    · intro l hl
      rcases mem_append.1 hl with hl | hl
      · rcases mem_cons.1 hl with rfl | hl
        · exact ht.breakless
        · exact (hls l hl).2
      · rw [mem_singleton.1 hl]
        decide
    · -- the header opens the body, its lines fill it, and the brace closes it
      let m' : IrModule := { m with functions := m.functions.insert b.name ⟨b.name, b.header, []⟩ }
      have hfill := foldlM_inside (fun l hl => (hls l hl).1.inside) m' (.start b.name b.header)
      rw [filter_eq_self.2 fun l hl => (kept_iff.1 (hls l hl).1).2, ← hb] at hfill
      rw [foldlM_append, foldlM_cons, line_header true ht hw m, hlast]
      show (ls.foldlM ParseState.line ⟨m', some (.start b.name b.header)⟩ >>= fun s =>
          [['\x7d']].foldlM ParseState.line s) = _
      rw [hfill]
      show (ParseState.line ⟨m', some b⟩ ['\x7d'] >>= fun s => pure s) = _
      show Except.ok
          (⟨{ m with functions := (m.functions.insert b.name _).insert b.name b.function }, none⟩ :
          ParseState) = _
      rw [Table.insert_insert]
      rfl

end rereads

/-! ## Printing -/

theorem intercalate_feed {ls : List (List Char)} (h : ls ≠ []) :
    ['\n'].intercalate ls ++ ['\n'] = unlines ls := by
  induction ls with
  | nil => exact absurd rfl h
  | cons l ls ih =>
    cases ls with
    | nil => simp
    | cons l' ls =>
      rw [intercalate_cons_cons, append_assoc, ih (by simp)]
      simp

theorem parse_of_rereads {f : IrModule → IrModule} (h : Rereads m.lines f) :
    parse m.print "" = .ok (f {}) := by
  obtain ⟨ls, hu, hb, hr⟩ := h
  have hprint : m.print.toList = ['\n'].intercalate (m.lines.map String.toList) ++ ['\n'] := by
    rw [IrModule.print, String.toList_append, String.toList_intercalate]
    rfl
  have hrun : (lines m.print.toList).foldlM ParseState.line ⟨{}, none⟩ = .ok ⟨f {}, none⟩ := by
    by_cases hl : m.lines = []
    · -- without lines a single line feed is printed
      have hls : ls = [] := by
        rw [hl] at hu
        cases ls with
        | nil => rfl
        | cons l ls => simp at hu
      have hfeed : lines ['\n'] = [[]] := by
        have h := lines_cons_break breakless_nil []
        rwa [lines] at h
      rw [hprint, hl, ← hr, hls]
      show (lines ['\n']).foldlM ParseState.line _ = _
      rw [hfeed]
      rfl
    · rw [hprint, intercalate_feed (by simpa using hl), ← hu, lines_unlines hb, hr]
  rw [parse_eq, hrun]
  rfl

/-! ## Sections -/

/-- A new text, if there is one, in the place of an old one. -/
def fill (old new : String) : String := if new.isEmpty then old else new

theorem fill_empty (new : String) : fill "" new = new := by
  unfold fill
  split_ifs with h
  · exact (String.isEmpty_iff.1 h).symm
  · rfl

theorem rereads_header {v : String} (e : String → Entity) (slot : Slot String) (hs : (e v).Sound)
    (hn : (e v).Recovers) (hadd : ∀ m, (e v).add m = slot.put m v) :
    Rereads (if v.isEmpty then [] else [(e v).line]) fun m => slot.put m (fill (slot.get m) v) := by
  unfold fill
  split_ifs with hv
  · simp only [slot.put_get]
    exact rereads_nil
  · simp only [← hadd]
    exact rereads_entity hs hn

theorem rereads_identifier (h : Breakless identifier.toList) :
    Rereads (if identifier.isEmpty then [] else ["; ModuleID = '" ++ identifier ++ "'"])
      fun m => { m with identifier := fill identifier m.identifier } := by
  split_ifs with hv
  · have hid : (fun m : IrModule => { m with identifier := fill identifier m.identifier }) =
        id := by
      funext m
      rw [String.isEmpty_iff.1 hv, fill_empty]
      rfl
    rw [hid]
    exact rereads_nil
  · have htext : ("; ModuleID = '" ++ identifier ++ "'").toList =
        "; ModuleID = '".toList ++ (identifier.toList ++ ['\'']) := by simp
    have hread : moduleId? ("; ModuleID = '".toList ++ (identifier.toList ++ ['\''])) =
        some identifier := by
      simp only [moduleId?, bind, dropHead?_append, Option.bind_some, reverse_append]
      show some (String.ofList identifier.toList.reverse.reverse) = _
      rw [reverse_reverse, String.ofList_toList]
    refine rereads_line ?_ fun m => ?_
    · rw [htext, breakless_append, breakless_append]
      exact ⟨by decide, h, by decide⟩
    · have htrim : trim ("; ModuleID = '".toList ++ (identifier.toList ++ ['\''])) ≠ [] := fun h =>
        absurd (trim_eq_nil.1 h ';' (by simp)) (by decide)
      rw [htext]
      refine (ParseState.topLine_eq ⟨m, none⟩ _).trans ?_
      rw [plainLine, if_neg htrim, identified, hread]
      rfl

section module

variable (hm : FromLines m)
include hm

theorem rereads_extraLines :
    Rereads m.extraLines fun x => { x with extraLines := x.extraLines ++ m.extraLines } := by
  have h : Rereads (m.extraLines.flatMap fun l => [l]) _ :=
    rereads_field ⟨IrModule.extraLines, fun x t => { x with extraLines := t }, fun _ _ => rfl,
      fun _ _ _ => rfl, fun _ => rfl⟩
      (fun t l => t ++ [l]) fun l hl => rereads_extra (hm.extra l hl)
  have hfold (ls t : List String) : ls.foldl (fun t l => t ++ [l]) t = t ++ ls := by
    simp [← flatMap_def]
  simpa only [flatMap_singleton', hfold] using h

theorem rereads_functions
    (hbrace : ∀ f ∈ m.functions.values, f.isDeclaration = false →
      f.header.toList.getLast? = some '\x7b') :
    Rereads (m.functions.values.flatMap fun f => "" :: f.lines)
      fun x => { x with functions := x.functions.insertMany m.functions.entries } := by
  rw [Table.values, flatMap_map]
  refine rereads_field
    ⟨IrModule.functions, fun x t => { x with functions := t }, fun _ _ => rfl, fun _ _ _ => rfl,
      fun _ => rfl⟩
    (fun t (e : String × Function) => t.insert e.1 e.2) fun e he => ?_
  obtain ⟨hname, hf⟩ := hm.functions e he
  rw [← hname]
  exact rereads_blank.cons (rereads_function hf (hbrace e.2 (mem_map_of_mem he)))

end module

/-! ## The round trip -/

theorem byNumber_sorted (t : Table Nat α) :
    (byNumber t).Pairwise fun a b => decide (a.1 ≤ b.1) = true :=
  pairwise_mergeSort (fun a b c h h' => by simp only [decide_eq_true_eq] at *; omega)
    (fun a b => by simp only [Bool.or_eq_true, decide_eq_true_eq]; omega) _

theorem byNumber_nodup (t : Table Nat α) : ((byNumber t).map Prod.fst).Nodup :=
  ((mergeSort_perm _ _).map Prod.fst).nodup_iff.2 t.distinct

theorem byNumber_ofList (t : Table Nat α) : byNumber (Table.ofList (byNumber t)) = byNumber t := by
  conv_lhs => rw [byNumber, Table.entries_ofList (byNumber_nodup t)]
  exact mergeSort_of_pairwise (byNumber_sorted t)

theorem get?_byNumber (t : Table Nat α) (n : Nat) :
    (Table.ofList (byNumber t)).get? n = t.get? n := by
  refine Option.ext fun v => ?_
  rw [Table.get?_eq_some, Table.get?_eq_some, Table.entries_ofList (byNumber_nodup t)]
  exact mem_mergeSort

/-- The module with its numbered entities in the order of their numbers. -/
def sorted (m : IrModule) : IrModule :=
  { m with
    attributeGroups := Table.ofList (byNumber m.attributeGroups)
    metadata := Table.ofList (byNumber m.metadata) }

theorem print_sorted (m : IrModule) : (sorted m).print = m.print := by
  have hlines : (sorted m).lines = m.lines := by
    unfold IrModule.lines
    simp only [sorted, byNumber_ofList]
    rfl
  rw [IrModule.print, hlines]
  rfl

theorem parse_sorted (hm : FromLines m)
    (hbrace : ∀ f ∈ m.functions.values, f.isDeclaration = false →
      f.header.toList.getLast? = some '\x7b')
    (hnames : ∀ name ∈ m.globals.keys ++ m.types.keys ++ m.comdats.keys, Recovers name) :
    parse m.print "" = .ok (sorted m) := by
  have hsource := rereads_header .source
    ⟨IrModule.sourceFilename, fun x v => { x with sourceFilename := v }, fun _ _ => rfl,
      fun _ _ _ => rfl, fun _ => rfl⟩
    hm.source trivial fun _ => rfl
  have hlayout := rereads_header .layout
    ⟨IrModule.dataLayout, fun x v => { x with dataLayout := v }, fun _ _ => rfl, fun _ _ _ => rfl,
      fun _ => rfl⟩
    hm.layout trivial fun _ => rfl
  have htriple := rereads_header .triple
    ⟨IrModule.targetTriple, fun x v => { x with targetTriple := v }, fun _ _ => rfl,
      fun _ _ _ => rfl, fun _ => rfl⟩
    hm.triple trivial fun _ => rfl
  have htypes := rereads_entities (e := fun x => .type x.1 x.2)
    ⟨IrModule.types, fun x t => { x with types := t }, fun _ _ => rfl, fun _ _ _ => rfl,
      fun _ => rfl⟩
    (fun x hx => ⟨hm.types x hx, hnames x.1 (by simp [Table.keys, mem_map_of_mem hx])⟩) fun _ _ _ =>
      rfl
  have hcomdats := rereads_entities (e := fun x => .comdat x.1 x.2)
    ⟨IrModule.comdats, fun x t => { x with comdats := t }, fun _ _ => rfl, fun _ _ _ => rfl,
      fun _ => rfl⟩
    (fun x hx => ⟨hm.comdats x hx, hnames x.1 (by simp [Table.keys, mem_map_of_mem hx])⟩)
      fun _ _ _ => rfl
  have hvalues : (m.globals.entries.map fun x => (Entity.global x.2).line) =
      m.globals.values.map Global.line := by
    rw [Table.values, map_map]
    rfl
  have hglobals := rereads_entities (e := fun x => .global x.2)
    ⟨IrModule.globals, fun x t => { x with globals := t }, fun _ _ => rfl, fun _ _ _ => rfl,
      fun _ => rfl⟩
    (fun x hx => ⟨(hm.globals x hx).2, show Recovers x.2.name from
      (hm.globals x hx).1 ▸ hnames x.1 (by simp [Table.keys, mem_map_of_mem hx])⟩)
    fun x hx _ => by rw [← (hm.globals x hx).1]; rfl
  rw [hvalues] at hglobals
  have hattributes := rereads_entities (e := fun x => .attributes x.1 x.2)
    ⟨IrModule.attributeGroups, fun x t => { x with attributeGroups := t }, fun _ _ => rfl,
      fun _ _ _ => rfl, fun _ => rfl⟩
    (fun x (hx : x ∈ byNumber _) => ⟨hm.attributes x (mem_mergeSort.1 hx), trivial⟩) fun _ _ _ =>
      rfl
  have hnamed := rereads_entities (e := fun x => .named x.1 x.2)
    ⟨IrModule.namedMetadata, fun x t => { x with namedMetadata := t }, fun _ _ => rfl,
      fun _ _ _ => rfl, fun _ => rfl⟩
    (fun x hx => ⟨hm.named x hx, trivial⟩) fun _ _ _ => rfl
  have hmetadata := rereads_entities (e := fun x => .metadata x.2.id x.2.text)
    ⟨IrModule.metadata, fun x t => { x with metadata := t }, fun _ _ => rfl, fun _ _ _ => rfl,
      fun _ => rfl⟩
    (fun x (hx : x ∈ byNumber _) => ⟨(hm.metadata x (mem_mergeSort.1 hx)).2, trivial⟩)
    fun x hx _ => by rw [← (hm.metadata x (mem_mergeSort.1 hx)).1]; rfl
  have hhead := ((rereads_identifier hm.identifier).append hsource).append hlayout
  have hhead := (hhead.append htriple).append (rereads_extraLines hm)
  have hsymbols :=
    ((hhead.append htypes.paragraph).append hcomdats.paragraph).append hglobals.paragraph
  have hsymbols := hsymbols.append (rereads_functions hm hbrace)
  have hall := (hsymbols.append hattributes.paragraph).append (hnamed.append hmetadata).paragraph
  rw [parse_of_rereads hall]
  have hentries {κ ν : Type} [DecidableEq κ] (t : Table κ ν) :
      (Table.empty : Table κ ν).insertMany t.entries = t :=
    Table.ofList_entries t
  simp only [Function.comp_apply, fill_empty, hentries]
  rfl

/-- Two modules with the same content; numbered entities are compared by number. -/
structure Agree (m m' : IrModule) : Prop where
  identifier : m'.identifier = m.identifier
  source : m'.sourceFilename = m.sourceFilename
  triple : m'.targetTriple = m.targetTriple
  layout : m'.dataLayout = m.dataLayout
  extra : m'.extraLines = m.extraLines
  types : m'.types = m.types
  comdats : m'.comdats = m.comdats
  globals : m'.globals = m.globals
  functions : m'.functions = m.functions
  attributes : ∀ n, m'.attributeGroups.get? n = m.attributeGroups.get? n
  metadata : ∀ n, m'.metadata.get? n = m.metadata.get? n
  named : m'.namedMetadata = m.namedMetadata

theorem agree_sorted (m : IrModule) : Agree m (sorted m) where
  identifier := rfl
  source := rfl
  triple := rfl
  layout := rfl
  extra := rfl
  types := rfl
  comdats := rfl
  globals := rfl
  functions := rfl
  attributes := get?_byNumber m.attributeGroups
  metadata := get?_byNumber m.metadata
  named := rfl

/-- Printing a module that was read and reading it again gives the same content, and so the same
text. -/
theorem parse_print {text identifier : String} {m : IrModule} (hid : Breakless identifier.toList)
    (h : IrModule.parse text identifier = .ok m)
    (hbrace : ∀ f ∈ m.functions.values, f.isDeclaration = false →
      f.header.toList.getLast? = some '\x7b')
    (hnames : ∀ name ∈ m.globals.keys ++ m.types.keys ++ m.comdats.keys, Recovers name) :
    ∃ m', IrModule.parse m.print "" = .ok m' ∧ Agree m m' ∧ m'.print = m.print :=
  ⟨sorted m, parse_sorted (fromLines_parse hid h) hbrace hnames, agree_sorted m, print_sorted m⟩

/-- Comments, quoted names, nodes out of order, and an instruction that goes over three lines. -/
def sampleLines : List String :=
  ["; a comment", "target triple = \"t\"", "!5 = !\x7b\x7d", "!0 = !\x7b!5\x7d",
    "%\"a b\" = type \x7b i32 \x7d",
   "$c = comdat any", "@\"x y\" = global i32 0", "attributes #0 = \x7b nounwind \x7d",
   "!list = !\x7b!5, !0\x7d",
   "module asm \"nop\"", "", "declare void @g()  ", "define i32 @f(i32 %0) \x7b",
   "  switch i32 %0, label %l [",
   "    i32 1, label %l", "  ]", "", "l: ; the only label", "  ret i32 0", "\x7d"]

def sampleText : String := String.ofList (unlines (sampleLines.map String.toList))

theorem lines_sampleText : lines sampleText.toList = sampleLines.map String.toList := by
  rw [sampleText, String.toList_ofList]
  exact lines_unlines (by decide +kernel)

theorem sampleText_again :
    ∃ m m', IrModule.parse sampleText "unit" = .ok m ∧ m.symbolNames = ["g", "f", "x y"] ∧
    IrModule.parse m.print "" = .ok m' ∧ Agree m m' ∧ m'.print = m.print := by
  -- what the theorem asks of the module that is read, evaluated at once
  have hok : ((sampleLines.map String.toList).foldlM ParseState.line ⟨{ identifier := "unit" },
      none⟩).toOption.any
      (fun s => s.closeBody.module.symbolNames = ["g", "f", "x y"] &&
        s.closeBody.module.functions.values.all (fun f => f.isDeclaration ||
          f.header.toList.getLast? = some '\x7b') &&
        (s.closeBody.module.globals.keys ++ s.closeBody.module.types.keys ++
          s.closeBody.module.comdats.keys).all
          fun name => Recovers name) = true := by
    decide +kernel
  cases hrun : (sampleLines.map String.toList).foldlM ParseState.line ⟨{ identifier := "unit" },
    none⟩ with
  | error e =>
    rw [hrun] at hok
    cases hok
  | ok s =>
    rw [hrun] at hok
    have hparse : IrModule.parse sampleText "unit" = .ok s.closeBody.module := by
      rw [parse_eq, lines_sampleText, hrun]
      rfl
    simp only [Except.toOption, Option.any_some, Bool.and_eq_true, decide_eq_true_eq, all_eq_true,
      Bool.or_eq_true] at hok
    obtain ⟨⟨hnames, hbrace⟩, hrecovers⟩ := hok
    obtain ⟨m', h⟩ := parse_print (by decide) hparse
      (fun f hf hd => (hbrace f hf).resolve_left (by rw [hd]; exact Bool.false_ne_true)) hrecovers
    exact ⟨_, m', hparse, hnames, h⟩

end CallAtlas.Ir
